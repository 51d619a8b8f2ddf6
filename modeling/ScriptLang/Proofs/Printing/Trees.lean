import ScriptLang.Proofs.Printing.Readback

/-! Printed trees tell apart all that is in a tree but ids, lines and the closing parentheses of
calls. -/

namespace ScriptLang

/-! ### Clean trees -/

theorem Sexp.clean_word {w : String} (h : w ≠ "" ∧ w.toList.all isInner) : (word w).Clean :=
  ⟨h.1, List.all_eq_true.mp h.2⟩

theorem Sexp.clean_list {w : String} {items : List Sexp} (hw : (word w).Clean)
    (hitems : CleanEach items) : (list "" (.word w :: items)).Clean :=
  ⟨by simp, hw, hitems⟩

theorem Literal.IsWord.clean {l : Literal} (h : l.IsWord) : (Sexp.word l.render).Clean := by
  cases l with
  | nil => exact Sexp.clean_word (by decide)
  | bool b => cases b <;> exact Sexp.clean_word (by decide)
  | string => exact h.elim
  | number x =>
      obtain ⟨negative, m, e, hparts⟩ := h
      obtain ⟨⟨c, cs, hcs, -⟩, hchars⟩ := numberText_chars hparts
      refine ⟨fun hempty => ?_, fun c hc => ?_⟩
      · rw [show numberText x = "" from hempty] at hcs
        cases hcs
      · rcases hchars c hc with hdigit | rfl | rfl
        · simp only [Sexp.isInner, Bool.and_eq_true, decide_eq_true_eq]
          refine ⟨⟨?_, ?_⟩, ?_⟩ <;> rintro rfl <;> exact absurd hdigit (by decide)
        · rfl
        · rfl

theorem Token.clean_of_mem {t : Token} {forms : List (String × Kind)}
    (h : (t.lexeme, t.kind) ∈ forms)
    (hforms : ∀ p ∈ forms, p.1 ≠ "" ∧ p.1.toList.all Sexp.isInner) :
    (Sexp.word t.lexeme).Clean :=
  Sexp.clean_word (hforms _ h)

section

open Sexp

mutual

/-- The words in a printed expression are clean. -/
theorem Expr.Spelled.clean : {e : Expr} → e.Spelled Literal.IsWord → e.sexp.Clean
  | .literal _, h => Literal.IsWord.clean h
  | .variable _ _, h => Token.IsName.clean h
  | .this _ _, _ => clean_word (by decide)
  | .super _ _ _, h => clean_list (clean_word (by decide)) ⟨h.2.clean, trivial⟩
  | .grouping inner, h =>
      clean_list (clean_word (by decide)) ⟨Expr.Spelled.clean (e := inner) h, trivial⟩
  | .unary _ _, h =>
      clean_list (Token.clean_of_mem h.1 (by decide)) ⟨Expr.Spelled.clean h.2, trivial⟩
  | .binary _ _ _, h | .logical _ _ _, h =>
      clean_list (Token.clean_of_mem h.2.1 (by decide))
        ⟨Expr.Spelled.clean h.1, Expr.Spelled.clean h.2.2, trivial⟩
  | .assign _ _ _, h =>
      clean_list (clean_word (by decide)) ⟨h.1.clean, Expr.Spelled.clean h.2, trivial⟩
  | .get _ _, h =>
      clean_list (clean_word (by decide)) ⟨Expr.Spelled.clean h.1, h.2.clean, trivial⟩
  | .set _ _ _, h =>
      clean_list (clean_word (by decide))
        ⟨clean_list (clean_word (by decide)) ⟨Expr.Spelled.clean h.1, h.2.1.clean, trivial⟩,
          Expr.Spelled.clean h.2.2, trivial⟩
  | .call _ _ _, h =>
      clean_list (clean_word (by decide)) ⟨Expr.Spelled.clean h.1, Expr.SpelledEach.clean h.2⟩

theorem Expr.SpelledEach.clean : {es : List Expr} → Expr.SpelledEach Literal.IsWord es →
    CleanEach (Expr.sexpEach es)
  | [], _ => trivial
  | _ :: _, h => ⟨Expr.Spelled.clean h.1, Expr.SpelledEach.clean h.2⟩

end

theorem clean_params {params : List Token} (h : ∀ p ∈ params, p.IsName) :
    CleanEach (params.map fun p => .word p.lexeme) := by
  induction params with
  | nil => trivial
  | cons p params ih =>
      obtain ⟨hfirst, hothers⟩ := List.forall_mem_cons.mp h
      exact ⟨hfirst.clean, ih hothers⟩

mutual

/-- The words in a printed statement are clean. -/
theorem Stmt.Spelled.clean : {s : Stmt} → s.Spelled Literal.IsWord → s.sexp.Clean
  | .expression e, h | .print e, h =>
      clean_list (clean_word (by decide)) ⟨Expr.Spelled.clean (e := e) h, trivial⟩
  | .var _ none, h => clean_list (clean_word (by decide)) ⟨h.1.clean, trivial⟩
  | .var _ (some e), h =>
      clean_list (clean_word (by decide)) ⟨h.1.clean, Expr.Spelled.clean (e := e) h.2, trivial⟩
  | .block _, h => clean_list (clean_word (by decide)) (Stmt.SpelledEach.clean h)
  | .ifThen _ _, h | .loop _ _, h =>
      clean_list (clean_word (by decide)) ⟨h.1.clean, Stmt.Spelled.clean h.2, trivial⟩
  | .ifElse _ _ _, h =>
      clean_list (clean_word (by decide))
        ⟨h.1.clean, Stmt.Spelled.clean h.2.1, Stmt.Spelled.clean h.2.2, trivial⟩
  | .function d, h => FunctionDecl.Spelled.clean (d := d) h (clean_word (by decide))
  | .ret _ none, _ => clean_list (clean_word (by decide)) trivial
  | .ret _ (some e), h =>
      clean_list (clean_word (by decide)) ⟨Expr.Spelled.clean (e := e) h.2, trivial⟩
  | .classDecl _ none _, h =>
      clean_list (clean_word (by decide)) ⟨h.1.clean, FunctionDecl.SpelledEach.clean h.2.2⟩
  | .classDecl _ (some e) _, h =>
      clean_list (clean_word (by decide)) ⟨h.1.clean, clean_word (by decide),
        Expr.Spelled.clean (e := e) h.2.1, FunctionDecl.SpelledEach.clean h.2.2⟩

theorem Stmt.SpelledEach.clean : {ss : List Stmt} → Stmt.SpelledEach Literal.IsWord ss →
    CleanEach (Stmt.sexpEach ss)
  | [], _ => trivial
  | _ :: _, h => ⟨Stmt.Spelled.clean h.1, Stmt.SpelledEach.clean h.2⟩

theorem FunctionDecl.Spelled.clean : {d : FunctionDecl} → d.Spelled Literal.IsWord →
    {w : String} → (word w).Clean → (d.sexp w).Clean
  | .mk _ _ _, h, _, hw =>
      clean_list hw ⟨⟨h.1.clean.2, clean_params h.2.1⟩, Stmt.SpelledEach.clean h.2.2⟩

theorem FunctionDecl.SpelledEach.clean : {ds : List FunctionDecl} →
    FunctionDecl.SpelledEach Literal.IsWord ds → CleanEach (FunctionDecl.sexpEach ds)
  | [], _ => trivial
  | _ :: _, h =>
      ⟨FunctionDecl.Spelled.clean h.1 (clean_word (by decide)), FunctionDecl.SpelledEach.clean h.2⟩

end

end

/-! ### What is not printed -/

mutual

theorem Expr.sexp_erase : (e : Expr) → e.erase.sexp = e.sexp
  | .literal _ | .variable _ _ | .this _ _ | .super _ _ _ => rfl
  | .grouping e | .unary _ e | .assign _ _ e | .get e _ => by
      simp [Expr.erase, Expr.sexp, e.sexp_erase, Token.erase]
  | .binary e _ e' | .logical e _ e' | .set e _ e' => by
      simp [Expr.erase, Expr.sexp, e.sexp_erase, e'.sexp_erase, Token.erase]
  | .call e _ es => by simp [Expr.erase, Expr.sexp, e.sexp_erase, Expr.sexpEach_erase es]

theorem Expr.sexpEach_erase : (es : List Expr) →
    Expr.sexpEach (Expr.eraseEach es) = Expr.sexpEach es
  | [] => rfl
  | e :: es => by rw [Expr.eraseEach, Expr.sexpEach, e.sexp_erase, Expr.sexpEach_erase es]; rfl

end

mutual

theorem Stmt.sexp_erase : (s : Stmt) → s.erase.sexp = s.sexp
  | .var _ none | .ret _ none => rfl
  | .expression e | .print e | .var _ (some e) | .ret _ (some e) => by
      simp [Stmt.erase, Stmt.sexp, e.sexp_erase, Token.erase]
  | .block ss => by simp [Stmt.erase, Stmt.sexp, Stmt.sexpEach_erase ss]
  | .ifThen e s | .loop e s => by simp [Stmt.erase, Stmt.sexp, e.sexp_erase, s.sexp_erase]
  | .ifElse e s s' => by
      simp [Stmt.erase, Stmt.sexp, e.sexp_erase, s.sexp_erase, s'.sexp_erase]
  | .function d => d.sexp_erase "fun"
  | .classDecl _ none ds => by
      simp [Stmt.erase, Stmt.sexp, FunctionDecl.sexpEach_erase ds, Token.erase]
  | .classDecl _ (some e) ds => by
      simp [Stmt.erase, Stmt.sexp, e.sexp_erase, FunctionDecl.sexpEach_erase ds, Token.erase]

theorem Stmt.sexpEach_erase : (ss : List Stmt) →
    Stmt.sexpEach (Stmt.eraseEach ss) = Stmt.sexpEach ss
  | [] => rfl
  | s :: ss => by rw [Stmt.eraseEach, Stmt.sexpEach, s.sexp_erase, Stmt.sexpEach_erase ss]; rfl

theorem FunctionDecl.sexp_erase (w : String) : (d : FunctionDecl) → d.erase.sexp w = d.sexp w
  | .mk _ _ ss => by
      simp [FunctionDecl.erase, FunctionDecl.sexp, Stmt.sexpEach_erase ss, Token.erase]

theorem FunctionDecl.sexpEach_erase : (ds : List FunctionDecl) →
    FunctionDecl.sexpEach (FunctionDecl.eraseEach ds) = FunctionDecl.sexpEach ds
  | [] => rfl
  | d :: ds => by
      rw [FunctionDecl.eraseEach, FunctionDecl.sexpEach, d.sexp_erase,
        FunctionDecl.sexpEach_erase ds]
      rfl

end

/-- Nothing that is erased shows in a printed statement. -/
theorem Stmt.render_erase (s : Stmt) : s.erase.render = s.render := by
  rw [Stmt.render_eq, Stmt.render_eq, s.sexp_erase]

/-! ### Statements of scripts -/

/-- Neither a string nor an infinite number. -/
def Literal.IsPlain : Literal → Prop
  | .string _ => False
  | .number x => ∀ negative, Number.parts x ≠ .infinite negative
  | _ => True

theorem Literal.IsPlain.isWord {l : Literal} (h : l.IsPlain) (hdefined : l.IsDefined) :
    l.IsWord := by
  cases l with
  | nil | bool => trivial
  | string => exact h
  | number x =>
      cases hparts : Number.parts x with
      | nan => exact absurd hparts (hdefined x rfl)
      | infinite negative => exact absurd hparts (h negative)
      | finite negative m e => exact ⟨negative, m, e, hparts⟩

theorem Stmt.SpelledEach.occurrence {P : Literal → Prop} {program : List Stmt}
    (h : Stmt.SpelledEach P program) {s : Stmt} {around : List Enclosure}
    (hs : ⟨.stmt s, around⟩ ∈ Stmt.occurrencesIn program) : s.Spelled P := by
  induction program with
  | nil => simp [Stmt.occurrencesIn] at hs
  | cons t program ih =>
      rw [Stmt.occurrencesIn, List.flatMap_cons] at hs
      rcases List.mem_append.mp hs with hs | hs
      · exact h.1.part hs
      · exact ih h.2 hs

theorem Source.spelled_of_occurrence {source : Source} {first next : ExprId} {program : Program}
    (h : Parsed.ofTokens source.tokens first = ⟨.ok program, next⟩) {s : Stmt}
    {around : List Enclosure} (hs : ⟨.stmt s, around⟩ ∈ Stmt.occurrencesIn program) :
    s.Spelled Literal.IsDefined :=
  ((Source.parses_iff.mp h).spelled fun _ => Source.isSpelled_of_mem_body).occurrence hs

/-- Statements of scripts, with neither strings nor infinite numbers in them, are printed alike just
when they differ at most in ids, lines and the closing parentheses of calls. -/
theorem printed_trees_identify_statements {source source' : Source}
    {first first' next next' : ExprId} {program program' : Program}
    (h : Parsed.ofTokens source.tokens first = ⟨.ok program, next⟩)
    (h' : Parsed.ofTokens source'.tokens first' = ⟨.ok program', next'⟩)
    {s s' : Stmt} {around around' : List Enclosure}
    (hs : ⟨.stmt s, around⟩ ∈ Stmt.occurrencesIn program)
    (hs' : ⟨.stmt s', around'⟩ ∈ Stmt.occurrencesIn program')
    (hplain : ∀ l a, ⟨.expr (.literal l), a⟩ ∈ s.occurrences around → l.IsPlain)
    (hplain' : ∀ l a, ⟨.expr (.literal l), a⟩ ∈ s'.occurrences around' → l.IsPlain) :
    s.render = s'.render ↔ s.erase = s'.erase := by
  have hspelled : s.Spelled Literal.IsWord :=
    (Source.spelled_of_occurrence h hs).imp fun l a hl => (hplain l a hl).isWord
  have hspelled' : s'.Spelled Literal.IsWord :=
    (Source.spelled_of_occurrence h' hs').imp fun l a hl => (hplain' l a hl).isWord
  constructor
  · intro hrender
    -- The text gives back the words and lists, and a reader of these gives back the tree.
    rw [Stmt.render_eq, Stmt.render_eq] at hrender
    have hsexp : s.sexp = s'.sexp := Sexp.text_injective hspelled.clean hspelled'.clean hrender
    obtain ⟨number, hnumber⟩ := Literal.numberText_injective.hasLeftInverse
    have hread := hspelled.stmt?_sexp hnumber
    rw [hsexp, hspelled'.stmt?_sexp hnumber] at hread
    exact (Option.some.inj hread).symm
  · intro herase
    rw [← s.render_erase, herase, s'.render_erase]

/-- A statement with a unary and a binary minus, a call and a number, and the same statement in a
function, on other lines and with the number written in another way. -/
theorem printed_trees_identify_statements_moved :
    let x := Number.ofDigits (ascii "1") (ascii "5")
    let f (line : Nat) : Token := ⟨.identifier, "f", line⟩
    let a (line : Nat) : Token := ⟨.identifier, "a", line⟩
    let g : Token := ⟨.identifier, "g", 1⟩
    let minus (line : Nat) : Token := ⟨.minus, "-", line⟩
    let paren (line : Nat) : Token := ⟨.rightParen, ")", line⟩
    let s (i : ExprId) (line after : Nat) : Stmt :=
      .print (.binary (.unary (minus line) (.call (.variable i (f line)) (paren after)
        [.variable (i + 1) (a line)])) (minus after) (.literal (.number x)))
    let source : Source := ascii "print -f(a) - 1.5;"
    let source' : Source := ascii "fun g(a) \x7b\nprint -f(a\n) - 1.50; \x7d"
    Parsed.ofTokens source.tokens 0 = ⟨.ok [s 0 1 1], 2⟩ ∧
      Parsed.ofTokens source'.tokens 2 = ⟨.ok [.function (.mk g [a 1] [s 2 2 3])], 4⟩ ∧
      s 0 1 1 ≠ s 2 2 3 ∧ (s 0 1 1).render = (s 2 2 3).render ∧
      (s 0 1 1).erase = (s 2 2 3).erase := by
  intro x f a g minus paren s source source'
  have hs (i : ExprId) (line after : Nat) (number : String) : Derives .declaration i
      [⟨.kwPrint, "print", line⟩, minus line, f line, ⟨.leftParen, "(", line⟩, a line, paren after,
        minus after, ⟨.number x, number, after⟩, ⟨.semicolon, ";", after⟩] (s i line after)
      (i + 2) := by
    have hcall : Derives .call i [f line, ⟨.leftParen, "(", line⟩, a line, paren after] _ (i + 2) :=
      .callWith (.callee (.reference rfl)) rfl (.argument (.name rfl)) (by simp) rfl
    have hleft : Derives (.operation [.term, .factor]) i _ _ (i + 2) :=
      .tighter (.tighter (.operand (.unary (.inr (rfl : (minus line).kind = _)) (.call hcall))))
    have hright : Derives (.operation [.factor]) (i + 2) [⟨.number x, number, after⟩] _ (i + 2) :=
      .tighter (.operand (.call (.callee (.number rfl))))
    have hjoin := hleft.join hright (.term (.inl (rfl : (minus after).kind = _)))
    have hvalue := Derives.operation (.tighter (.tighter (.tighter (.tighter hjoin))))
    exact .statement false (.print rfl hvalue rfl)
  have htokens : source.tokens = [⟨.kwPrint, "print", 1⟩, minus 1, f 1, ⟨.leftParen, "(", 1⟩, a 1,
      paren 1, minus 1, ⟨.number x, "1.5", 1⟩, ⟨.semicolon, ";", 1⟩] ++ [⟨.eof, "", 1⟩] := by
    decide +kernel
  have htokens' : source'.tokens = ([⟨.kwFun, "fun", 1⟩, g, ⟨.leftParen, "(", 1⟩, a 1, paren 1,
      ⟨.leftBrace, "\x7b", 1⟩, ⟨.kwPrint, "print", 2⟩, minus 2, f 2, ⟨.leftParen, "(", 2⟩, a 2,
      paren 3, minus 3, ⟨.number x, "1.50", 3⟩, ⟨.semicolon, ";", 3⟩, ⟨.rightBrace, "\x7d", 3⟩] ++
      [⟨.eof, "", 3⟩]) := by
    decide +kernel
  have hparsed : Parsed.ofTokens source.tokens 0 = ⟨.ok [s 0 1 1], 2⟩ := by
    rw [htokens]
    exact (Parsed.ofTokens_eq_ok_iff (by simp [Token.isEof, minus, f, a, paren]) rfl).mpr
      (.declarations (hs 0 1 1 "1.5") .noDeclarations)
  have hparsed' : Parsed.ofTokens source'.tokens 2 =
      ⟨.ok [.function (.mk g [a 1] [s 2 2 3])], 4⟩ := by
    have hbody := Derives.declarations (hs 2 2 3 "1.50") .noDeclarations
    have hfunction : Derives .function 2 _ (.mk g [a 1] [s 2 2 3]) 4 :=
      .function rfl (rfl : Token.kind ⟨.leftParen, "(", 1⟩ = _) (.parameter rfl) (by simp)
        (rfl : (paren 1).kind = _) (rfl : Token.kind ⟨.leftBrace, "\x7b", 1⟩ = _) hbody
        (rfl : Token.kind ⟨.rightBrace, "\x7d", 3⟩ = _)
    rw [htokens']
    exact (Parsed.ofTokens_eq_ok_iff (by simp [Token.isEof, minus, f, a, g, paren]) rfl).mpr
      (.declarations (.funDecl rfl hfunction) .noDeclarations)
  have hfinite : (Literal.number x).IsPlain := by
    have hparts : ∀ negative, Number.parts x ≠ .infinite negative := by decide +kernel
    exact hparts
  have hplain (i : ExprId) (line after : Nat) (around : List Enclosure) (l : Literal)
      (b : List Enclosure) (hl : ⟨.expr (.literal l), b⟩ ∈ (s i line after).occurrences around) :
      l.IsPlain := by
    have hnumber : l = .number x ∧ b = around := by
      simpa [s, Stmt.occurrences, Expr.occurrences, Expr.nodes, Expr.nodesEach] using hl
    exact hnumber.1 ▸ hfinite
  have hrender : (s 0 1 1).render = (s 2 2 3).render := by
    simp [s, Stmt.render, Expr.render, Expr.renderEach, minus, f, a]
  have hself (i : ExprId) (line after : Nat) (around : List Enclosure) :
      ⟨.stmt (s i line after), around⟩ ∈ (s i line after).occurrences around :=
    List.mem_cons_self
  have hmem : ⟨.stmt (s 0 1 1), []⟩ ∈ Stmt.occurrencesIn [s 0 1 1] := by
    simp [Stmt.occurrencesIn, hself]
  have hmem' : ⟨.stmt (s 2 2 3), [.scope [a 1], .function (.mk g [a 1] [s 2 2 3])]⟩ ∈
      Stmt.occurrencesIn [.function (.mk g [a 1] [s 2 2 3])] := by
    simp [Stmt.occurrencesIn, Stmt.occurrences, FunctionDecl.occurrences, Stmt.occurrencesEach,
      hself]
  have hiff := printed_trees_identify_statements hparsed hparsed' hmem hmem' (hplain 0 1 1 _)
    (hplain 2 2 3 _)
  exact ⟨hparsed, hparsed', by simp [s], hrender, hiff.mp hrender⟩

end ScriptLang
