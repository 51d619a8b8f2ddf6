import ScriptLang.Proofs.Numbering.Parsing
import ScriptLang.Proofs.Reading.Seams

/-! Places in a program where a declaration begins. What the parser does from such a place on is
reading declarations and then going on with whatever is still open around them, and going on does
not depend on the trees that were built, on the ids that were used or on the errors that were
noted. -/

namespace ScriptLang

/-! ### Going on whatever was read -/

/-- Cursors with more errors before all others, and ids further up. -/
def Kinship.later (k : Nat) (es : List SyntaxError) : Kinship where
  Kin c c' := c' = (c.raise k).noting es
  rest := by rintro c _ rfl; rfl
  eof := by rintro c _ rfl; rfl
  take := by rintro c _ t rest rfl _; rfl
  fresh := by
    rintro c _ rfl
    simp [Cursor.raise, Cursor.noting, Nat.add_right_comm]
  record := by rintro c _ rfl e; rfl

/-- A kinship of cursors with the same ids, or with ids further up and more errors. -/
inductive Kinship.Ordinary : Kinship → Prop where
  | exact (K : ExactKinship) : Ordinary K.toKinship
  | later (k : Nat) (es : List SyntaxError) : Ordinary (.later k es)

/-- Both replies are the same but for the trees. -/
def Reply.Alike {α : Type} (K : Kinship) (r r' : Reply α) : Prop :=
  r.Kindred K (fun _ _ => True) r'

namespace Parser

/-- Both parsers take the same tokens and note the same errors, whatever the trees they build,
also with ids further up and after other errors. -/
def Alike {α : Type} (p p' : Parser α) : Prop :=
  ∀ ⦃K : Kinship⦄, K.Ordinary → Kindred K (fun _ _ => True) p p'

/-- A use of a reply that does not look at its tree, and that does not lose an error. -/
structure Oblivious {α β : Type} (F : Reply α → Reply β) : Prop where
  alike : ∀ ⦃K : Kinship⦄, K.Ordinary → ∀ r r', r.Alike K r' → (F r).Alike K (F r')
  heeds : ∀ e c b d, F (.fail e c) = .ok b d → d.errors ≠ []
  exhausted : F .exhausted = .exhausted

section Rules

variable {α β γ : Type}

theorem alike_of_kindred {K : Kinship} {V : α → α → Prop} {r r' : Reply α}
    (h : r.Kindred K V r') : r.Alike K r' := by
  cases r with
  | exhausted => exact trivial
  | ok a d =>
      cases r' with
      | ok a' d' => exact ⟨trivial, h.2⟩
      | fail e' d' | exhausted => exact h.elim
  | fail e d =>
      cases r' with
      | fail e' d' => exact h
      | ok a' d' | exhausted => exact h.elim

theorem alike_of_raises {p : Parser α} {f : Nat → α → α} (hraises : ∀ k, Raises k (f k) p p)
    (hkindred : ∀ K : ExactKinship, Kindred K.toKinship Eq p p) : Alike p p := by
  intro K hK
  cases hK with
  | exact K => exact fun c c' hc => alike_of_kindred (hkindred K c c' hc)
  | later k es =>
      rintro c _ rfl
      have hreply := alike_of_kindred (hkindred (.noting es) (c.raise k) _ rfl)
      rw [hraises k c] at hreply
      cases hread : p c with
      | exhausted => exact trivial
      | ok a d | fail e d =>
          rw [hread] at hreply
          cases hread' : p ((c.raise k).noting es) with
          | ok a' d' | fail e' d' | exhausted =>
              rw [hread'] at hreply
              exact hreply

theorem Alike.bind {p p' : Parser α} {q q' : α → Parser β} (h : Alike p p')
    (hq : ∀ a a', Alike (q a) (q' a')) : Alike (p >>= q) (p' >>= q') :=
  fun _ hK => (h hK).bind fun a a' _ => hq a a' hK

theorem Alike.pure (a a' : α) : Alike (pure a) (pure a') := fun _ _ => .pure trivial

theorem Alike.expect {q q' : Token → Parser β} (kind : Kind) (cause : SyntaxCause)
    (hq : ∀ t, Alike (q t) (q' t)) : Alike (expect kind cause >>= q) (expect kind cause >>= q') :=
  fun _ hK => (Kindred.expect kind cause).seq fun t => hq t hK

theorem Alike.takeIf {q q' : Option Token → Parser β} (accepts : Kind → Bool)
    (hq : ∀ t, Alike (q t) (q' t)) : Alike (takeIf accepts >>= q) (takeIf accepts >>= q') :=
  fun _ hK => (Kindred.takeIf accepts).seq fun t => hq t hK

theorem Alike.nextOrEnd {q q' : Bool → Parser β} (kind : Kind) (hq : ∀ b, Alike (q b) (q' b)) :
    Alike (nextOrEnd kind >>= q) (nextOrEnd kind >>= q') :=
  fun _ hK => (Kindred.nextOrEnd kind).seq fun b => hq b hK

theorem Alike.recover {p p' : Parser α} (h : Alike p p') : Alike (recover p) (recover p') := by
  intro K hK c c' hc
  rw [recover_eq_recovered, recover_eq_recovered]
  exact recovered_kindred (h hK c c' hc) trivial

namespace Oblivious

theorem id : Oblivious (id : Reply α → Reply α) where
  alike _ _ _ _ h := h
  heeds _ _ _ _ h := nomatch h
  exhausted := rfl

theorem andThen {q : α → Parser β} (hq : ∀ a a', Alike (q a) (q a')) :
    Oblivious (andThen q) where
  alike _ hK _ _ h := andThen_kindred h fun a a' _ => hq a a' hK
  heeds _ _ _ _ h := nomatch h
  exhausted := rfl

theorem recovered : Oblivious (recovered : Reply α → Reply (Option α)) where
  alike _ _ _ _ h := recovered_kindred h trivial
  heeds e c _ d h := by
    cases h
    obtain ⟨_, htook, -⟩ := (c.record e).synchronize_took
    intro herrors
    exact absurd (htook.errors_nil herrors) (List.cons_ne_nil e c.errors)
  exhausted := rfl

/-- What follows a reply notes further errors only. -/
theorem errors_nil {F : Reply α → Reply β} (hF : Oblivious F) {a : α} {b : β} {c d : Cursor}
    (h : F (.ok a c) = .ok b d) (hd : d.errors = []) : c.errors = [] := by
  have hreply := hF.alike (.exact (.onward c)) (.ok a c) (.ok a c) ⟨trivial, rfl, .refl c⟩
  rw [h] at hreply
  obtain ⟨-, -, ts, htook⟩ := hreply
  exact htook.errors_nil hd

theorem comp {F : Reply β → Reply γ} {G : Reply α → Reply β} (hF : Oblivious F)
    (hG : Oblivious G) : Oblivious (F ∘ G) where
  alike _ hK _ _ h := hF.alike hK _ _ (hG.alike hK _ _ h)
  heeds e c b d h hd := by
    rw [Function.comp_apply] at h
    cases hreply : G (.fail e c) with
    | ok a c' =>
        rw [hreply] at h
        exact hG.heeds e c a c' hreply (hF.errors_nil h hd)
    | fail e' c' =>
        rw [hreply] at h
        exact hF.heeds e' c' b d h hd
    | exhausted =>
        rw [hreply, hF.exhausted] at h
        cases h
  exhausted := by rw [Function.comp_apply, hG.exhausted, hF.exhausted]

end Oblivious

theorem map_eq_andThen (f : α → β) (p : Parser α) (c : Cursor) :
    (f <$> p) c = andThen (fun a => Pure.pure (f a)) (p c) := by
  rw [map_eq_pure_bind, bind_eq_andThen]

/-- A parser that goes on after a reply, and another one after it. -/
theorem bind_of_andThen {p : Parser β} {q : α → Parser β} {q' : β → Parser γ} {c : Cursor}
    {r : Reply α} (h : p c = andThen q r) : (p >>= q') c = andThen (fun a => q a >>= q') r := by
  rw [bind_eq_andThen, h]
  cases r with
  | ok a d => exact (bind_eq_andThen (q a) q' d).symm
  | fail e d | exhausted => rfl

end Rules

theorem declaration_alike (n : Nat) : Alike (declaration n) (declaration n) :=
  alike_of_raises (fun k => declaration_raises k n) fun K => by
    simpa only [Nat.zero_add] using declaration_kindred K 0 n

theorem statement_alike (n : Nat) : Alike (statement n) (statement n) :=
  alike_of_raises (fun k => statement_raises k n) fun K => by
    simpa only [Nat.zero_add] using statement_kindred K 0 n

theorem function_alike (n : Nat) (what : Callable) : Alike (function n what) (function n what) :=
  alike_of_raises (fun k => function_raises k n what) fun K => by
    simpa only [Nat.zero_add] using function_kindred K 0 n what

theorem methods_alike (n : Nat) (front front' : List FunctionDecl) :
    Alike (methods n front) (methods n front') := by
  induction n generalizing front front' with
  | zero => exact fun _ _ => .exhausted
  | succ n ih =>
      refine .nextOrEnd _ fun ended => ?_
      cases ended with
      | true => exact .pure _ _
      | false => exact (function_alike n .method).bind fun d d' => ih (d :: front) (d' :: front')

end Parser

theorem Listing.read_alike (listing : Listing) (n : Nat) (front front' : List Stmt) :
    Parser.Alike (listing.read n front) (listing.read n front') := by
  induction n generalizing front front' with
  | zero => cases listing <;> exact fun _ _ => .exhausted
  | succ n ih =>
      rw [read_succ, read_succ]
      intro K hK
      have hended : Parser.Kindred K Eq listing.ended listing.ended := by
        cases listing with
        | program => exact .atEnd
        | block => exact .nextOrEnd _
      have hclose : Parser.Kindred K Eq listing.close listing.close := by
        cases listing with
        | program => exact .pure rfl
        | block => exact (Parser.Kindred.expect _ _).seq fun _ => .pure rfl
      refine hended.seq fun found => ?_
      cases found with
      | true => exact hclose.seq fun _ => .pure trivial
      | false =>
          exact (Parser.declaration_alike n).recover.bind (fun s s' => ih _ _) hK

/-! ### Statements around a statement -/

/-- The tokens of a statement before the statement that ends it, and of that one in turn, any
number of times. -/
inductive Leading : ExprId → List Token → ExprId → Prop where
  | none {i} : Leading i [] i
  | ifThen {i keyword lparen ts condition j rparen us k} :
      keyword.kind = .kwIf → lparen.kind = .leftParen → Derives .expression i ts condition j →
      rparen.kind = .rightParen → Leading j us k →
      Leading i (keyword :: lparen :: ts ++ rparen :: us) k
  | ifElse {i keyword lparen ts condition j rparen us s k otherwise vs l} :
      keyword.kind = .kwIf → lparen.kind = .leftParen → Derives .expression i ts condition j →
      rparen.kind = .rightParen → Derives (.statement false) j us s k → otherwise.kind = .kwElse →
      Leading k vs l → Leading i (keyword :: lparen :: ts ++ rparen :: us ++ otherwise :: vs) l
  | whileLoop {i keyword lparen ts condition j rparen us k} :
      keyword.kind = .kwWhile → lparen.kind = .leftParen → Derives .expression i ts condition j →
      rparen.kind = .rightParen → Leading j us k →
      Leading i (keyword :: lparen :: ts ++ rparen :: us) k
  | forLoop {i keyword lparen ts init j us condition k semicolon vs increment l rparen ws m} :
      keyword.kind = .kwFor → lparen.kind = .leftParen → Derives .forInit i ts init j →
      Derives .optional j us condition k → semicolon.kind = .semicolon →
      Derives .optional k vs increment l → rparen.kind = .rightParen → Leading l ws m →
      Leading i (keyword :: lparen :: ts ++ us ++ semicolon :: vs ++ rparen :: ws) m

/-- What is done after a statement that stands in others: nothing, unless `else` follows. -/
structure Wrapping (g : Stmt → Parser Stmt) : Prop where
  alike : ∀ s s', Parser.Alike (g s) (g s')
  ends : ∀ s c, Stops (· = .kwElse) c.rest → ∃ s', g s c = .ok s' c

namespace Wrapping

theorem of_pure (f : Stmt → Stmt) : Wrapping fun s => pure (f s) where
  alike _ _ := .pure _ _
  ends s _ _ := ⟨f s, rfl⟩

theorem bind {g h : Stmt → Parser Stmt} (hg : Wrapping g) (hh : Wrapping h) :
    Wrapping fun s => g s >>= h where
  alike s s' := (hg.alike s s').bind hh.alike
  ends s c hc := by
    obtain ⟨s', hs'⟩ := hg.ends s c hc
    obtain ⟨s'', hs''⟩ := hh.ends s' c hc
    exact ⟨s'', (Parser.bind_of_ok hs').trans hs''⟩

/-- After the first branch of a conditional there may be another. -/
theorem ifStatement (n : Nat) (condition : Expr) : Wrapping fun s => (do
    match ← Parser.take? .kwElse with
    | none => pure (.ifThen condition s)
    | some _ =>
      let elseBranch ← Parser.statement n
      pure (.ifElse condition s elseBranch)) where
  alike s s' := by
    refine .takeIf _ fun otherwise => ?_
    cases otherwise with
    | none => exact .pure _ _
    | some _ => exact (Parser.statement_alike n).bind fun _ _ => .pure _ _
  ends s c hc := ⟨.ifThen condition s, Parser.bind_of_ok (Parser.takeIf_of_stops hc)⟩

end Wrapping

/-- A statement is read inside those around it. -/
theorem Leading.statement_eq {i j : ExprId} {ts : List Token} (h : Leading i ts j) {n : Nat}
    (hn : 16 * ts.length + 11 ≤ n) : ∃ m g, n ≤ m + ts.length ∧ Wrapping g ∧
      ∀ rest eof errors, Parser.statement n ⟨ts ++ rest, eof, i, errors⟩ =
        Parser.andThen g (Parser.statement m ⟨rest, eof, j, errors⟩) := by
  induction h generalizing n with
  | none =>
      refine ⟨n, pure, Nat.le_refl n, .of_pure id, fun rest eof errors => ?_⟩
      rw [List.nil_append]
      cases Parser.statement n _ <;> rfl
  | @ifThen i _ lparen ts condition j rparen us k hkeyword hlparen hcondition hrparen _ ih =>
      obtain ⟨n, rfl⟩ : ∃ n', n = n' + 2 := ⟨n - 2, by omega⟩
      simp only [List.length_append, List.length_cons] at hn ⊢
      obtain ⟨m, g, hm, hg, hread⟩ := ih (n := n) (by omega)
      refine ⟨m, _, by omega, hg.bind (.ifStatement n condition), fun rest eof errors => ?_⟩
      have hread₁ := Parser.completes hcondition n (rparen :: (us ++ rest)) eof errors (by omega)
        (.cons (by rw [hrparen]; decide) _)
      simp only [List.cons_append, List.append_assoc]
      rw [Parser.Completes.statement_eq (by simp [hkeyword, Kind.beginsStatement])]
      simp only [hkeyword]
      rw [Parser.ifStatement]
      refine (Parser.bind_of_ok (Parser.expect_of_kind hlparen)).trans ?_
      refine (Parser.bind_of_ok hread₁).trans ?_
      refine (Parser.bind_of_ok (Parser.expect_of_kind hrparen)).trans ?_
      exact Parser.bind_of_andThen (hread rest eof errors)
  | @ifElse i _ lparen ts condition j rparen us s k otherwise vs l hkeyword hlparen hcondition
      hrparen hthen hotherwise _ ih =>
      obtain ⟨n, rfl⟩ : ∃ n', n = n' + 2 := ⟨n - 2, by omega⟩
      simp only [List.length_append, List.length_cons] at hn ⊢
      obtain ⟨m, g, hm, hg, hread⟩ := ih (n := n) (by omega)
      refine ⟨m, _, by omega, hg.bind (.of_pure (.ifElse condition s)), fun rest eof errors => ?_⟩
      have hread₁ := Parser.completes hcondition n (rparen :: (us ++ otherwise :: (vs ++ rest)))
        eof errors (by omega) (.cons (by rw [hrparen]; decide) _)
      have hread₂ := Parser.completes hthen n (otherwise :: (vs ++ rest)) eof errors (by omega)
        (by simp)
      simp only [List.cons_append, List.append_assoc]
      rw [Parser.Completes.statement_eq (by simp [hkeyword, Kind.beginsStatement])]
      simp only [hkeyword]
      rw [Parser.ifStatement]
      refine (Parser.bind_of_ok (Parser.expect_of_kind hlparen)).trans ?_
      refine (Parser.bind_of_ok hread₁).trans ?_
      refine (Parser.bind_of_ok (Parser.expect_of_kind hrparen)).trans ?_
      refine (Parser.bind_of_ok hread₂).trans ?_
      refine (Parser.bind_of_ok (Parser.takeIf_of_accepts (by simp [hotherwise]))).trans ?_
      exact Parser.bind_of_andThen (hread rest eof errors)
  | @whileLoop i _ lparen ts condition j rparen us k hkeyword hlparen hcondition hrparen _ ih =>
      obtain ⟨n, rfl⟩ : ∃ n', n = n' + 2 := ⟨n - 2, by omega⟩
      simp only [List.length_append, List.length_cons] at hn ⊢
      obtain ⟨m, g, hm, hg, hread⟩ := ih (n := n) (by omega)
      refine ⟨m, _, by omega, hg.bind (.of_pure (.loop condition)), fun rest eof errors => ?_⟩
      have hread₁ := Parser.completes hcondition n (rparen :: (us ++ rest)) eof errors (by omega)
        (.cons (by rw [hrparen]; decide) _)
      simp only [List.cons_append, List.append_assoc]
      rw [Parser.Completes.statement_eq (by simp [hkeyword, Kind.beginsStatement])]
      simp only [hkeyword]
      rw [Parser.whileStatement]
      refine (Parser.bind_of_ok (Parser.expect_of_kind hlparen)).trans ?_
      refine (Parser.bind_of_ok hread₁).trans ?_
      refine (Parser.bind_of_ok (Parser.expect_of_kind hrparen)).trans ?_
      exact Parser.bind_of_andThen (hread rest eof errors)
  | @forLoop i _ lparen ts init j us condition k semicolon vs increment l rparen ws m hkeyword
      hlparen hinit hcondition hsemicolon hincrement hrparen _ ih =>
      obtain ⟨n, rfl⟩ : ∃ n', n = n' + 2 := ⟨n - 2, by omega⟩
      simp only [List.length_append, List.length_cons] at hn ⊢
      obtain ⟨m, g, hm, hg, hread⟩ := ih (n := n) (by omega)
      refine ⟨m, _, by omega, hg.bind (.of_pure (.forLoop init condition increment)),
        fun rest eof errors => ?_⟩
      have hread₁ := Parser.completes hinit n (us ++ semicolon :: (vs ++ rparen :: (ws ++ rest)))
        eof errors (by omega)
      have hread₂ := Parser.completes hcondition n .semicolon semicolon
        (vs ++ rparen :: (ws ++ rest)) eof errors (by omega) hsemicolon (by decide) (by decide)
      have hread₃ := Parser.completes hincrement n .rightParen rparen (ws ++ rest) eof errors
        (by omega) hrparen (by decide) (by decide)
      simp only [List.cons_append, List.append_assoc]
      rw [Parser.Completes.statement_eq (by simp [hkeyword, Kind.beginsStatement])]
      simp only [hkeyword]
      rw [Parser.forStatement]
      refine (Parser.bind_of_ok (Parser.expect_of_kind hlparen)).trans ?_
      refine (Parser.bind_of_ok hread₁).trans ?_
      refine (Parser.bind_of_ok hread₂).trans ?_
      refine (Parser.bind_of_ok (Parser.expect_of_kind hsemicolon)).trans ?_
      refine (Parser.bind_of_ok hread₃).trans ?_
      refine (Parser.bind_of_ok (Parser.expect_of_kind hrparen)).trans ?_
      exact Parser.bind_of_andThen (hread rest eof errors)

/-! ### Bodies -/

/-- The tokens of a function before the declarations of its body. -/
inductive Signature : ExprId → List Token → ExprId → Prop where
  | bare {i name lparen rparen lbrace} :
      name.kind = .identifier → lparen.kind = .leftParen → rparen.kind = .rightParen →
      lbrace.kind = .leftBrace → Signature i [name, lparen, rparen, lbrace] i
  | params {i name lparen ps params j rparen lbrace} :
      name.kind = .identifier → lparen.kind = .leftParen → Derives .parameters i ps params j →
      params.length ≤ maxArity → rparen.kind = .rightParen → lbrace.kind = .leftBrace →
      Signature i (name :: lparen :: ps ++ [rparen, lbrace]) j

/-- The tokens of a class before its methods. -/
inductive ClassHead : ExprId → List Token → ExprId → Prop where
  | base {i keyword name lbrace} :
      keyword.kind = .kwClass → name.kind = .identifier → lbrace.kind = .leftBrace →
      ClassHead i [keyword, name, lbrace] i
  | derived {i keyword name less parent lbrace} :
      keyword.kind = .kwClass → name.kind = .identifier → less.kind = .less →
      parent.kind = .identifier → lbrace.kind = .leftBrace →
      ClassHead i [keyword, name, less, parent, lbrace] (i + 1)

theorem Signature.exists_cons {i j : ExprId} {ts : List Token} (h : Signature i ts j) :
    ∃ name us, ts = name :: us ∧ name.kind = .identifier := by
  cases h with
  | bare hname => exact ⟨_, _, rfl, hname⟩
  | params hname => exact ⟨_, _, rfl, hname⟩

theorem Signature.function_eq {i j : ExprId} {ts : List Token} (h : Signature i ts j) {n : Nat}
    (hn : 16 * ts.length ≤ n) : ∃ g : List Stmt → Parser FunctionDecl,
      (∀ ss ss', Parser.Alike (g ss) (g ss')) ∧
      ∀ what rest eof errors, Parser.function (n + 1) what ⟨ts ++ rest, eof, i, errors⟩ =
        Parser.andThen g (Parser.block n [] ⟨rest, eof, j, errors⟩) := by
  cases h with
  | @bare name _ _ _ hname hlparen hrparen hlbrace =>
      refine ⟨fun ss => pure (.mk name [] ss), fun _ _ => .pure _ _,
        fun what rest eof errors => ?_⟩
      simp only [List.cons_append, List.nil_append]
      rw [Parser.function]
      refine (Parser.bind_of_ok (Parser.expect_of_kind hname)).trans ?_
      refine (Parser.bind_of_ok (Parser.expect_of_kind hlparen)).trans ?_
      refine (Parser.bind_of_ok (Parser.unlessNext_of_kind hrparen)).trans ?_
      refine (Parser.bind_of_ok (Parser.expect_of_kind hrparen)).trans ?_
      refine (Parser.bind_of_ok (Parser.expect_of_kind hlbrace)).trans ?_
      exact Parser.bind_eq_andThen _ _ _
  | @params name _ ps params _ rparen lbrace hname hlparen hparams hmax hrparen hlbrace =>
      simp only [List.length_append, List.length_cons] at hn
      refine ⟨fun ss => pure (.mk name params ss), fun _ _ => .pure _ _,
        fun what rest eof errors => ?_⟩
      have hread := Parser.completes hparams n [] (rparen :: lbrace :: rest) eof errors (by omega)
        (by simpa using hmax) (.cons (by simp [hrparen]) _)
      have hstop : Stops (· = .rightParen) (ps ++ rparen :: lbrace :: rest) := by
        refine hparams.opens.stops rfl (fun kind hkind => ?_) _
        cases kind <;> first | rfl | cases hkind
      simp only [List.cons_append, List.append_assoc, List.nil_append]
      rw [Parser.function]
      refine (Parser.bind_of_ok (Parser.expect_of_kind hname)).trans ?_
      refine (Parser.bind_of_ok (Parser.expect_of_kind hlparen)).trans ?_
      refine (Parser.bind_of_ok ((Parser.unlessNext_of_stops hstop).trans hread)).trans ?_
      refine (Parser.bind_of_ok (Parser.expect_of_kind hrparen)).trans ?_
      refine (Parser.bind_of_ok (Parser.expect_of_kind hlbrace)).trans ?_
      exact Parser.bind_eq_andThen _ _ _

theorem ClassHead.declaration_eq {i j : ExprId} {ts : List Token} (h : ClassHead i ts j)
    (n : Nat) : ∃ g : List FunctionDecl → Parser Stmt, (∀ ds ds', Parser.Alike (g ds) (g ds')) ∧
      ∀ rest eof errors, Parser.declaration (n + 2) ⟨ts ++ rest, eof, i, errors⟩ =
        Parser.andThen g (Parser.methods n [] ⟨rest, eof, j, errors⟩) := by
  cases h with
  | @base _ name lbrace hkeyword hname hlbrace =>
      refine ⟨fun ds => do
        let _ ← Parser.expect .rightBrace .noBraceAfterClassBody
        pure (.classDecl name none ds), fun _ _ => .expect _ _ fun _ => .pure _ _,
        fun rest eof errors => ?_⟩
      have hnone : Parser.superclass ⟨lbrace :: rest, eof, i, errors⟩ =
          .ok none ⟨lbrace :: rest, eof, i, errors⟩ :=
        Parser.bind_of_ok (Parser.takeIf_of_stops (.cons (by simp [hlbrace]) _))
      simp only [List.cons_append, List.nil_append]
      rw [Parser.Completes.declaration_eq (by simp [hkeyword, Kind.beginsDeclaration])]
      simp only [hkeyword]
      rw [Parser.classDeclaration]
      refine (Parser.bind_of_ok (Parser.expect_of_kind hname)).trans ?_
      refine (Parser.bind_of_ok hnone).trans ?_
      refine (Parser.bind_of_ok (Parser.expect_of_kind hlbrace)).trans ?_
      exact Parser.bind_eq_andThen _ _ _
  | @derived _ name less parent lbrace hkeyword hname hless hparent hlbrace =>
      refine ⟨fun ds => do
        let _ ← Parser.expect .rightBrace .noBraceAfterClassBody
        pure (.classDecl name (some (.variable i parent)) ds),
        fun _ _ => .expect _ _ fun _ => .pure _ _, fun rest eof errors => ?_⟩
      have hsome : Parser.superclass ⟨less :: parent :: lbrace :: rest, eof, i, errors⟩ =
          .ok (some (.variable i parent)) ⟨lbrace :: rest, eof, i + 1, errors⟩ :=
        (Parser.bind_of_ok (Parser.takeIf_of_accepts (by simp [hless]))).trans
          (Parser.bind_of_ok (Parser.expect_of_kind hparent))
      simp only [List.cons_append, List.nil_append]
      rw [Parser.Completes.declaration_eq (by simp [hkeyword, Kind.beginsDeclaration])]
      simp only [hkeyword]
      rw [Parser.classDeclaration]
      refine (Parser.bind_of_ok (Parser.expect_of_kind hname)).trans ?_
      refine (Parser.bind_of_ok hsome).trans ?_
      refine (Parser.bind_of_ok (Parser.expect_of_kind hlbrace)).trans ?_
      exact Parser.bind_eq_andThen _ _ _

/-- Where a method begins it is read, and then the others. -/
theorem Parser.methods_of_identifier {t : Token} (ht : t.kind = .identifier) (n : Nat)
    (front : List FunctionDecl) (rest : List Token) (eof : Token) (i : ExprId)
    (errors : List SyntaxError) : methods (n + 1) front ⟨t :: rest, eof, i, errors⟩ =
      andThen (fun d => methods n (d :: front))
        (function n .method ⟨t :: rest, eof, i, errors⟩) := by
  have hmore : nextOrEnd .rightBrace ⟨t :: rest, eof, i, errors⟩ =
      .ok false ⟨t :: rest, eof, i, errors⟩ := by simp [nextOrEnd, ht]
  rw [methods, bind_of_ok hmore]
  exact bind_eq_andThen _ _ _

/-- After methods that are read without an error the others are read as if they were the first. -/
theorem Parser.methods_of_functions {i j : ExprId} {ts : List Token} {ds : List FunctionDecl}
    (h : Derives .functions i ts ds j) {n : Nat} (hn : 16 * ts.length + 2 ≤ n)
    (front : List FunctionDecl) : ∃ m before, n ≤ m + ts.length ∧ ∀ rest eof errors,
      methods n front ⟨ts ++ rest, eof, i, errors⟩ = methods m before ⟨rest, eof, j, errors⟩ := by
  induction ds generalizing i ts n front with
  | nil =>
      cases h
      exact ⟨n, front, Nat.le_refl n, fun _ _ _ => rfl⟩
  | cons d ds ih =>
      cases h with
      | @functions _ ts _ k us _ _ hfirst hothers =>
          obtain ⟨n, rfl⟩ : ∃ n', n = n' + 1 := ⟨n - 1, by omega⟩
          simp only [List.length_append] at hn ⊢
          have hopens := hfirst.opens
          have hpos : 0 < ts.length := List.length_pos_iff.mpr (hopens.2 rfl)
          obtain ⟨m, before, hm, hread⟩ := ih hothers (by omega : _ ≤ n) (d :: front)
          refine ⟨m, before, by omega, fun rest eof errors => ?_⟩
          have hmethod := completes hfirst n .method (us ++ rest) eof errors (by omega)
          cases ts with
          | nil => simp at hpos
          | cons t ts =>
              have ht : t.kind = .identifier := by simpa [Symbol.begins] using hopens.1 t rfl
              rw [List.cons_append] at hmethod
              rw [List.append_assoc, List.cons_append, methods_of_identifier ht, hmethod]
              exact hread rest eof errors

/-! ### Places -/

/-- The tokens of a program or block, with the ids `i` to `j`, before a place where one of its
declarations begins, or a declaration of a block, function or class in it. -/
inductive Opened : ExprId → List Token → ExprId → Prop where
  | here {i} : Opened i [] i
  | next {i ts s j us k} : Derives .declaration i ts s j → Opened j us k → Opened i (ts ++ us) k
  | block {i ts j lbrace us k} :
      Leading i ts j → lbrace.kind = .leftBrace → Opened j us k → Opened i (ts ++ lbrace :: us) k
  | function {i keyword ts j us k} :
      keyword.kind = .kwFun → Signature i ts j → Opened j us k → Opened i (keyword :: ts ++ us) k
  | method {i ts j us ds k vs l ws m} :
      ClassHead i ts j → Derives .functions j us ds k → Signature k vs l → Opened l ws m →
      Opened i (ts ++ (us ++ (vs ++ ws))) m

/-- Reading by `p` comes to the declarations behind `ts`, and then goes on whatever they are. -/
def Reaches {α : Type} (p : Parser α) (i : ExprId) (ts : List Token) (j : ExprId)
    (budget : Nat) : Prop :=
  ∃ (inner : Listing) (m : Nat) (before : List Stmt) (F : Reply (List Stmt) → Reply α),
    budget ≤ m ∧ Parser.Oblivious F ∧ ∀ rest eof errors, Symbol.declaration.Opens rest →
      p ⟨ts ++ rest, eof, i, errors⟩ = F (inner.read m before ⟨rest, eof, j, errors⟩)

theorem Reaches.of_eq {α β : Type} {p : Parser α} {q : Parser β} {i j k : ExprId}
    {ts us : List Token} {n m : Nat} {F : Reply β → Reply α} (h : Reaches q j us k n) (hm : m ≤ n)
    (hF : Parser.Oblivious F) (hp : ∀ rest eof errors, Symbol.declaration.Opens rest →
      p ⟨ts ++ (us ++ rest), eof, i, errors⟩ = F (q ⟨us ++ rest, eof, j, errors⟩)) :
    Reaches p i (ts ++ us) k m := by
  obtain ⟨inner, l, before, G, hl, hG, hq⟩ := h
  refine ⟨inner, l, before, F ∘ G, by omega, hF.comp hG, fun rest eof errors hrest => ?_⟩
  rw [List.append_assoc, hp rest eof errors hrest, hq rest eof errors hrest]
  rfl

/-- A declaration is read in a list of declarations. -/
theorem Reaches.of_declaration {i j : ExprId} {ts : List Token} {n m : Nat}
    (h : Reaches (Parser.declaration n) i ts j m)
    (hopens : ∀ rest, Symbol.declaration.Opens rest → Symbol.declaration.Opens (ts ++ rest))
    (listing : Listing) (front : List Stmt) : Reaches (listing.read (n + 1) front) i ts j m := by
  have hgo : Parser.Oblivious (Parser.andThen fun s : Option Stmt =>
      listing.read n (s.toList ++ front)) :=
    Parser.Oblivious.andThen fun _ _ => listing.read_alike n _ _
  rw [← List.nil_append ts]
  refine h.of_eq (Nat.le_refl m) (hgo.comp Parser.Oblivious.recovered) ?_
  intro rest eof errors hrest
  have hstart := hopens rest hrest
  rw [List.nil_append]
  cases hts : ts ++ rest with
  | nil =>
      rw [hts] at hstart
      exact absurd rfl (hstart.2 rfl)
  | cons t us =>
      rw [hts] at hstart
      rw [listing.read_eq_recover rfl hstart.ne_rightBrace, Parser.bind_eq_andThen,
        Parser.recover_eq_recovered]
      rfl

theorem Leading.opens {i j : ExprId} {ts rest : List Token} (h : Leading i ts j)
    (hrest : (Symbol.statement false).Opens rest) :
    (Symbol.statement false).Opens (ts ++ rest) := by
  cases h with
  | none => exact hrest
  | ifThen hkeyword | ifElse hkeyword | whileLoop hkeyword | forLoop hkeyword =>
      exact .of_begins (by simp [Symbol.begins, Kind.beginsStatement, hkeyword]) _

theorem Symbol.Opens.declaration {rest : List Token} (h : (Symbol.statement false).Opens rest) :
    Symbol.declaration.Opens rest := by
  refine h.imp rfl fun kind hkind => ?_
  simp only [Symbol.begins, Bool.or_eq_true] at hkind ⊢
  tauto

theorem Parser.declaration_eq_statement {rest : List Token}
    (h : (Symbol.statement false).Opens rest) (n : Nat) (eof : Token) (i : ExprId)
    (errors : List SyntaxError) : declaration (n + 1) ⟨rest, eof, i, errors⟩ =
      statement n ⟨rest, eof, i, errors⟩ := by
  have hnone : Stops Kind.beginsDeclaration rest := by
    refine h.stops_self rfl fun kind hkind => ?_
    cases kind <;> first | rfl | cases hkind
  rw [declaration]
  exact bind_of_ok (takeIf_of_stops hnone)

namespace Opened

variable {i j : ExprId} {ts : List Token}

/-- The tokens before a place begin as a declaration does. -/
theorem opens (h : Opened i ts j) {rest : List Token} (hrest : Symbol.declaration.Opens rest) :
    Symbol.declaration.Opens (ts ++ rest) := by
  cases h with
  | here => exact hrest
  | next hfirst _ =>
      rw [List.append_assoc]
      exact hfirst.opens.append rfl (fun _ => id) _
  | @block _ _ _ lbrace us _ hleading hlbrace _ =>
      have hblock : (Symbol.statement false).Opens (lbrace :: us ++ rest) :=
        .of_begins (by simp [Symbol.begins, Kind.beginsStatement, hlbrace]) _
      rw [List.append_assoc]
      exact (hleading.opens hblock).declaration
  | function hkeyword =>
      exact .of_begins (by simp [Symbol.begins, Kind.beginsDeclaration, hkeyword]) _
  | method hhead =>
      cases hhead with
      | base hkeyword | derived hkeyword =>
          exact .of_begins (by simp [Symbol.begins, Kind.beginsDeclaration, hkeyword]) _

/-- From the beginning of a list of declarations every place in it is reached. -/
theorem reaches (h : Opened i ts j) (listing : Listing) {n : Nat} (hn : 16 * ts.length + 13 ≤ n)
    (front : List Stmt) : Reaches (listing.read n front) i ts j (n - 3 * ts.length) := by
  induction h generalizing listing n front with
  | here => exact ⟨listing, n, front, id, Nat.sub_le n _, .id, fun _ _ _ _ => rfl⟩
  | @next i ts s j us k hfirst hothers ih =>
      obtain ⟨n, rfl⟩ : ∃ n', n = n' + 1 := ⟨n - 1, by omega⟩
      simp only [List.length_append] at hn ⊢
      have hpos : 0 < ts.length := List.length_pos_iff.mpr (hfirst.opens.2 rfl)
      refine (ih listing (n := n) (by omega) (s :: front)).of_eq (F := id) (by omega)
        .id fun rest eof errors hrest => ?_
      have hstop : Stops (· = .kwElse) (us ++ rest) := by
        have hopens := (hothers.opens hrest).imp (y := .declarations) rfl fun _ => id
        rw [← List.append_nil (us ++ rest)]
        exact hopens.stops_else .nil
      exact listing.read_of_declaration hfirst (by omega) hstop front eof errors
  | @block i ts j lbrace us k hleading hlbrace hinner ih =>
      obtain ⟨n, rfl⟩ : ∃ n', n = n' + 2 := ⟨n - 2, by omega⟩
      simp only [List.length_append, List.length_cons] at hn ⊢
      obtain ⟨m, g, hm, hg, hread⟩ := hleading.statement_eq (n := n) (by omega)
      obtain ⟨m, rfl⟩ : ∃ m', m = m' + 1 := ⟨m - 1, by omega⟩
      have hbody := ih .block (n := m) (by omega) []
      have hblock (rest : List Token) : (Symbol.statement false).Opens (lbrace :: us ++ rest) :=
        .of_begins (by simp [Symbol.begins, Kind.beginsStatement, hlbrace]) _
      have hdeclaration : Reaches (Parser.declaration (n + 1)) i (ts ++ [lbrace] ++ us) k
          (n + 2 - 3 * (ts.length + (us.length + 1))) := by
        refine hbody.of_eq (by omega) ((Parser.Oblivious.andThen hg.alike).comp
          (Parser.Oblivious.andThen fun ss ss' => .pure (Stmt.block ss) (.block ss'))) ?_
        intro rest eof errors hrest
        have hopens := hleading.opens (hblock rest)
        rw [List.append_assoc, List.singleton_append, ← List.cons_append,
          Parser.declaration_eq_statement hopens, hread, List.cons_append,
          Parser.Completes.statement_eq (by simp [hlbrace, Kind.beginsStatement])]
        simp only [hlbrace]
        rw [Parser.map_eq_andThen]
        rfl
      rw [List.append_assoc, List.singleton_append] at hdeclaration
      refine hdeclaration.of_declaration (fun rest hrest => ?_) listing front
      rw [List.append_assoc]
      exact (hleading.opens (hblock rest)).declaration
  | @function i keyword ts j us k hkeyword hsignature hinner ih =>
      obtain ⟨n, rfl⟩ : ∃ n', n = n' + 3 := ⟨n - 3, by omega⟩
      simp only [List.length_append, List.length_cons] at hn ⊢
      obtain ⟨g, hg, hread⟩ := hsignature.function_eq (n := n) (by omega)
      have hbody := ih .block (n := n) (by omega) []
      have hdeclaration : Reaches (Parser.declaration (n + 2)) i (keyword :: ts ++ us) k
          (n + 3 - 3 * (ts.length + 1 + us.length)) := by
        refine hbody.of_eq (by omega) ((Parser.Oblivious.andThen fun d d' =>
          .pure (Stmt.function d) (.function d')).comp (Parser.Oblivious.andThen hg)) ?_
        intro rest eof errors hrest
        rw [List.cons_append,
          Parser.Completes.declaration_eq (by simp [hkeyword, Kind.beginsDeclaration])]
        simp only [hkeyword]
        rw [Parser.map_eq_andThen, hread]
        rfl
      refine hdeclaration.of_declaration (fun rest hrest => ?_) listing front
      exact .of_begins (by simp [Symbol.begins, Kind.beginsDeclaration, hkeyword]) _
  | @method i ts j us ds k vs l ws m hhead hfunctions hsignature hinner ih =>
      obtain ⟨n, rfl⟩ : ∃ n', n = n' + 3 := ⟨n - 3, by omega⟩
      simp only [List.length_append] at hn ⊢
      have hthree : 3 ≤ ts.length := by cases hhead <;> simp
      have hfour : 4 ≤ vs.length := by cases hsignature <;> simp
      obtain ⟨g, hg, hclass⟩ := hhead.declaration_eq n
      obtain ⟨m', before, hm, hmethods⟩ :=
        Parser.methods_of_functions hfunctions (n := n) (by omega) []
      obtain ⟨m', rfl⟩ : ∃ m'', m' = m'' + 2 := ⟨m' - 2, by omega⟩
      obtain ⟨g', hg', hread⟩ := hsignature.function_eq (n := m') (by omega)
      obtain ⟨name, vs', rfl, hname⟩ := hsignature.exists_cons
      have hbody := ih .block (n := m') (by omega) []
      have hdeclaration : Reaches (Parser.declaration (n + 2)) i (ts ++ us ++ (name :: vs') ++ ws) m
          (n + 3 - 3 * (ts.length + (us.length + ((name :: vs').length + ws.length)))) := by
        refine hbody.of_eq (by omega) ((Parser.Oblivious.andThen hg).comp
          ((Parser.Oblivious.andThen fun d d' =>
            Parser.methods_alike (m' + 1) (d :: before) (d' :: before)).comp
              (Parser.Oblivious.andThen hg'))) ?_
        intro rest eof errors hrest
        rw [List.append_assoc, List.append_assoc, hclass, hmethods, List.cons_append,
          Parser.methods_of_identifier hname, ← List.cons_append, hread]
        rfl
      rw [List.append_assoc, List.append_assoc] at hdeclaration
      refine hdeclaration.of_declaration (fun rest hrest => ?_) listing front
      cases hhead with
      | base hkeyword | derived hkeyword =>
          exact .of_begins (by simp [Symbol.begins, Kind.beginsDeclaration, hkeyword]) _

end Opened

end ScriptLang
