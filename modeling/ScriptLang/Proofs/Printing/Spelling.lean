import ScriptLang.Proofs.Frames.Coherence
import ScriptLang.Proofs.Lexing.Lexemes
import ScriptLang.Proofs.Numbers.Literals
import ScriptLang.Proofs.Printing.Sexps
import ScriptLang.Proofs.Scoping.Violations

/-! How the tokens of trees are written. The grammar fixes the kinds of the tokens that a tree
keeps, and with them the texts of all of them but names. -/

namespace ScriptLang

/-- A digit is one byte. -/
theorem isDigit_byte {c : Char} (h : c.isDigit = true) :
    c.toNat < 128 ∧ isDigit (byte c) = true := by
  obtain ⟨hlow, hhigh⟩ : 48 ≤ c.toNat ∧ c.toNat ≤ 57 := by
    simpa [Char.isDigit, UInt32.le_iff_toNat_le] using h
  have hascii : c.toNat < 128 := by omega
  have hzero : (byte '0').toNat = 48 := rfl
  have hnine : (byte '9').toNat = 57 := rfl
  refine ⟨hascii, ?_⟩
  simp only [isDigit, Bool.and_eq_true, decide_eq_true_eq, UInt8.le_iff_toNat_le,
    toNat_byte hascii, hzero, hnine]
  exact ⟨hlow, hhigh⟩

namespace Token

/-! ### Tokens with one text -/

/-- The tokens that are written in one way only. -/
def fixed : List (String × Kind) := Kind.marks ++ Kind.keywords

def unaryForms : List (String × Kind) := [("!", .bang), ("-", .minus)]

def binaryForms : List (String × Kind) :=
  [("!=", .bangEqual), ("==", .equalEqual), (">", .greater), (">=", .greaterEqual), ("<", .less),
   ("<=", .lessEqual), ("-", .minus), ("+", .plus), ("/", .slash), ("*", .star)]

def logicalForms : List (String × Kind) := [("and", .kwAnd), ("or", .kwOr)]

theorem decode_fixed : ∀ p ∈ fixed, Utf8.decode (ascii p.1) = p.1 := by
  decide +kernel

theorem fixed_unique : ∀ p ∈ fixed, ∀ q ∈ fixed, p.2 = q.2 → p.1 = q.1 := by
  decide +kernel

theorem IsSpelled.lexeme_eq {t : Token} (h : t.IsSpelled) {text : String}
    (hfixed : (text, t.kind) ∈ fixed) : t.lexeme = text := by
  -- Its bytes are those of some fixed text, and no other fixed text has its kind.
  have hlexeme {other : String} (hother : (other, t.kind) ∈ fixed)
      (hbytes : encode t.lexeme.toList = ascii other) : t.lexeme = text := by
    rw [← Utf8.decode_encode t.lexeme, hbytes, decode_fixed _ hother]
    exact fixed_unique _ hother _ hfixed rfl
  unfold IsSpelled at h
  generalize encode t.lexeme.toList = bytes at h hlexeme
  generalize t.kind = kind at h hlexeme hfixed
  cases h with
  | mark hmark => exact hlexeme (List.mem_append_left _ hmark) rfl
  | keyword hkeyword => exact hlexeme (List.mem_append_right _ hkeyword) rfl
  | _ => simp [fixed, Kind.marks, Kind.keywords] at hfixed

theorem IsSpelled.form_eq {t : Token} (h : t.IsSpelled) {text : String} {kind : Kind}
    (hkind : t.kind = kind) (hfixed : (text, kind) ∈ fixed) :
    (t.lexeme, t.kind) = (text, kind) := by
  subst hkind
  rw [h.lexeme_eq hfixed]

/-- A token of one of these kinds has the text that belongs to its kind. -/
theorem IsSpelled.mem_forms {t : Token} (h : t.IsSpelled) {forms : List (String × Kind)}
    (hforms : forms ⊆ fixed) (hkind : t.kind ∈ forms.map Prod.snd) :
    (t.lexeme, t.kind) ∈ forms := by
  obtain ⟨⟨text, kind⟩, hmem, hkind⟩ := List.mem_map.mp hkind
  rwa [h.form_eq hkind.symm (hforms hmem)]

/-! ### Numbers and names -/

/-- Numbers in scripts are never undefined. -/
theorem IsSpelled.parts_ne {t : Token} (h : t.IsSpelled) {x : Float} (hkind : t.kind = .number x) :
    Number.parts x ≠ .nan := by
  have hfixed : ∀ p ∈ fixed, p.2 ≠ .number x := by simp [fixed, Kind.marks, Kind.keywords]
  unfold IsSpelled at h
  rw [hkind] at h
  generalize encode t.lexeme.toList = bytes at h
  cases h with
  | mark hmark => exact absurd rfl (hfixed _ (List.mem_append_left _ hmark))
  | keyword hkeyword => exact absurd rfl (hfixed _ (List.mem_append_right _ hkeyword))
  | whole | decimal => exact Number.parts_ofDigits_ne _ _

/-- A name as it is written. -/
structure IsName (t : Token) : Prop where
  kind : t.kind = .identifier
  spelled : t.IsSpelled

/-- A name begins with a letter, goes on with letters and digits and is no keyword. -/
theorem IsName.bytes {t : Token} (h : t.IsName) :
    ∃ b more, encode t.lexeme.toList = b :: more ∧ isLetter b ∧ (∀ c ∈ more, isWordByte c) ∧
      ∀ reserved ∈ Kind.keywords, t.lexeme ≠ reserved.1 := by
  have hfixed : ∀ p ∈ fixed, p.2 ≠ .identifier := by decide
  have hascii : ∀ p ∈ Kind.keywords, encode p.1.toList = ascii p.1 := by decide
  obtain ⟨hkind, h⟩ := h
  unfold IsSpelled at h
  rw [hkind] at h
  generalize hbytes : encode t.lexeme.toList = bytes at h
  cases h with
  | mark hmark => exact absurd rfl (hfixed _ (List.mem_append_left _ hmark))
  | keyword hkeyword => exact absurd rfl (hfixed _ (List.mem_append_right _ hkeyword))
  | identifier hfirst hmore hname =>
      refine ⟨_, _, rfl, hfirst, hmore, fun reserved hreserved heq => hname reserved hreserved ?_⟩
      rw [← hascii reserved hreserved, ← heq, hbytes]

theorem IsName.ne_keyword {t : Token} (h : t.IsName) {reserved : String × Kind}
    (hreserved : reserved ∈ Kind.keywords) : t.lexeme ≠ reserved.1 := by
  obtain ⟨-, -, -, -, -, hname⟩ := h.bytes
  exact hname reserved hreserved

theorem IsName.wordBytes {t : Token} (h : t.IsName) :
    ∀ b ∈ encode t.lexeme.toList, isWordByte b := by
  obtain ⟨b, more, hbytes, hfirst, hmore, -⟩ := h.bytes
  rw [hbytes, List.forall_mem_cons]
  exact ⟨by simp [isWordByte, hfirst], hmore⟩

/-- Names are words of printed trees. -/
theorem IsName.clean {t : Token} (h : t.IsName) : (Sexp.word t.lexeme).Clean := by
  constructor
  · intro hempty
    obtain ⟨b, more, hbytes, -⟩ := h.bytes
    simp [hempty, encode] at hbytes
  · intro c hc
    have hbytes : ∀ b ∈ String.utf8EncodeChar c, isWordByte b :=
      fun b hb => h.wordBytes b (List.mem_flatMap.mpr ⟨c, hc, hb⟩)
    simp only [Sexp.isInner, Bool.and_eq_true, decide_eq_true_eq]
    refine ⟨⟨?_, ?_⟩, ?_⟩ <;> rintro rfl <;> exact absurd hbytes (by decide)

/-- The text of a name begins with no digit and no sign. -/
theorem IsName.head {t : Token} (h : t.IsName) :
    ∀ c ∈ t.lexeme.toList.head?, c.isDigit = false ∧ c ≠ '-' := by
  intro c hc
  obtain ⟨b, more, hbytes, hfirst, -, -⟩ := h.bytes
  obtain ⟨cs, hcs⟩ : ∃ cs, t.lexeme.toList = c :: cs := List.head?_eq_some_iff.mp hc
  rw [hcs, encode_cons] at hbytes
  have hletter (hascii : c.toNat < 128) : isLetter (byte c) := by
    rw [utf8EncodeChar_ascii hascii] at hbytes
    exact (List.cons.inj hbytes).1 ▸ hfirst
  constructor
  · by_contra hdigit
    obtain ⟨hascii, hbyte⟩ := isDigit_byte (Bool.eq_true_of_not_eq_false hdigit)
    exact absurd hbyte (Bool.eq_false_iff.mp (Piece.isDigit_of_isLetter (hletter hascii)))
  · rintro rfl
    exact absurd (hletter (by decide)) (by decide)

end Token

/-! ### Trees -/

section

variable (P : Literal → Prop)

mutual

/-- An expression whose tokens are written as their kinds are, with literals as `P` says. -/
def Expr.Spelled : Expr → Prop
  | .literal value => P value
  | .grouping inner => inner.Spelled
  | .unary operator right => (operator.lexeme, operator.kind) ∈ Token.unaryForms ∧ right.Spelled
  | .binary left operator right =>
    left.Spelled ∧ (operator.lexeme, operator.kind) ∈ Token.binaryForms ∧ right.Spelled
  | .logical left operator right =>
    left.Spelled ∧ (operator.lexeme, operator.kind) ∈ Token.logicalForms ∧ right.Spelled
  | .variable _ name => name.IsName
  | .assign _ name value => name.IsName ∧ value.Spelled
  | .call callee _ arguments => callee.Spelled ∧ Expr.SpelledEach arguments
  | .get object name => object.Spelled ∧ name.IsName
  | .set object name value => object.Spelled ∧ name.IsName ∧ value.Spelled
  | .this _ keyword => (keyword.lexeme, keyword.kind) = ("this", .kwThis)
  | .super _ keyword method =>
    (keyword.lexeme, keyword.kind) = ("super", .kwSuper) ∧ method.IsName

def Expr.SpelledEach : List Expr → Prop
  | [] => True
  | e :: es => e.Spelled ∧ Expr.SpelledEach es

end

def Expr.Spelled? : Option Expr → Prop
  | none => True
  | some e => e.Spelled P

mutual

def Stmt.Spelled : Stmt → Prop
  | .expression e => e.Spelled P
  | .print e => e.Spelled P
  | .var name initializer => name.IsName ∧ Expr.Spelled? P initializer
  | .block body => Stmt.SpelledEach body
  | .ifThen condition thenBranch => condition.Spelled P ∧ thenBranch.Spelled
  | .ifElse condition thenBranch elseBranch =>
    condition.Spelled P ∧ thenBranch.Spelled ∧ elseBranch.Spelled
  | .loop condition body => condition.Spelled P ∧ body.Spelled
  | .function decl => decl.Spelled
  | .ret keyword value =>
    (keyword.lexeme, keyword.kind) = ("return", .kwReturn) ∧ Expr.Spelled? P value
  | .classDecl name superclass methods =>
    name.IsName ∧ Expr.Spelled? P superclass ∧ FunctionDecl.SpelledEach methods

def Stmt.SpelledEach : List Stmt → Prop
  | [] => True
  | s :: ss => s.Spelled ∧ Stmt.SpelledEach ss

def FunctionDecl.Spelled : FunctionDecl → Prop
  | .mk name params body => name.IsName ∧ (∀ p ∈ params, p.IsName) ∧ Stmt.SpelledEach body

def FunctionDecl.SpelledEach : List FunctionDecl → Prop
  | [] => True
  | d :: ds => d.Spelled ∧ FunctionDecl.SpelledEach ds

end

/-- What is true of the tree of a phrase of tokens as they are written. -/
def Symbol.Spelled : (x : Symbol) → x.Tree → Prop
  | .declarations => Stmt.SpelledEach P
  | .declaration => Stmt.Spelled P
  | .varDecl => Stmt.Spelled P
  | .functions => FunctionDecl.SpelledEach P
  | .function => FunctionDecl.Spelled P
  | .parameters => fun params => ∀ p ∈ params, p.IsName
  | .statement _ => Stmt.Spelled P
  | .exprStmt => Stmt.Spelled P
  | .forInit => fun init => Stmt.SpelledEach P init.toList
  | .optional => Expr.Spelled? P
  | .expression => Expr.Spelled P
  | .operation _ => Expr.Spelled P
  | .unary => Expr.Spelled P
  | .call => Expr.Spelled P
  | .arguments => Expr.SpelledEach P
  | .primary => Expr.Spelled P

end

/-! ### Phrases -/

/-- Not an undefined number. -/
def Literal.IsDefined (l : Literal) : Prop := ∀ x, l = .number x → Number.parts x ≠ .nan

theorem Level.Joins.spelled {level : Level} {left right e : Expr} {operator : Token}
    (h : level.Joins left operator right e) {P : Literal → Prop} (hleft : left.Spelled P)
    (hoperator : operator.IsSpelled) (hright : right.Spelled P) : e.Spelled P := by
  cases h with
  | or hkind | and hkind =>
      have hmem : operator.kind ∈ Token.logicalForms.map Prod.snd := by
        simp [Token.logicalForms, hkind]
      exact ⟨hleft, hoperator.mem_forms (by decide) hmem, hright⟩
  | equality hkind | comparison hkind | term hkind | factor hkind =>
      have hmem : operator.kind ∈ Token.binaryForms.map Prod.snd := by
        simp only [Token.binaryForms, List.map_cons, List.map_nil, List.mem_cons]
        tauto
      exact ⟨hleft, hoperator.mem_forms (by decide) hmem, hright⟩

theorem Stmt.ForForm.spelled {init : Option Stmt} {condition increment : Option Expr}
    {body s : Stmt} (h : ForForm init condition increment body s)
    (hinit : Stmt.SpelledEach Literal.IsDefined init.toList)
    (hcondition : Expr.Spelled? Literal.IsDefined condition)
    (hincrement : Expr.Spelled? Literal.IsDefined increment)
    (hbody : body.Spelled Literal.IsDefined) : s.Spelled Literal.IsDefined := by
  induction h with
  | endless => exact ⟨by simp [Expr.Spelled, Literal.IsDefined], hbody⟩
  | loop => exact ⟨hcondition, hbody⟩
  | increment _ ih => exact ih hinit hcondition trivial ⟨hbody, hincrement, trivial⟩
  | initializer _ ih => exact ⟨hinit.1, ih trivial hcondition hincrement hbody, trivial⟩

/-- The trees of scripts are spelled. -/
theorem Derives.spelled {x : Symbol} {i j : ExprId} {ts : List Token} {a : x.Tree}
    (h : Derives x i ts a j) (hspelled : ∀ t ∈ ts, t.IsSpelled) :
    x.Spelled Literal.IsDefined a := by
  induction h with
  | noDeclarations | noFunctions | absent | forNone => trivial
  | string | trueWord | falseWord | nilWord =>
      simp [Symbol.Spelled, Expr.Spelled, Literal.IsDefined]
  | number hkind =>
      rintro x ⟨⟩
      exact (hspelled _ (by simp)).parts_ne hkind
  | reference hkind => exact ⟨hkind, hspelled _ (by simp)⟩
  | this hkind => exact (hspelled _ (by simp)).form_eq hkind (by decide)
  | super hkind _ hmethod =>
      exact ⟨(hspelled _ (by simp)).form_eq hkind (by decide), hmethod, hspelled _ (by simp)⟩
  | varBare _ hname => exact ⟨⟨hname, hspelled _ (by simp)⟩, trivial⟩
  | varInit _ hname _ _ _ ih | assign hname _ _ ih =>
      exact ⟨⟨hname, hspelled _ (by simp)⟩, ih fun t ht => hspelled t (by simp [ht])⟩
  | baseClass _ hname _ _ _ ih =>
      exact ⟨⟨hname, hspelled _ (by simp)⟩, trivial, ih fun t ht => hspelled t (by simp [ht])⟩
  | derivedClass _ hname _ hparent _ _ _ ih =>
      exact ⟨⟨hname, hspelled _ (by simp)⟩, ⟨hparent, hspelled _ (by simp)⟩,
        ih fun t ht => hspelled t (by simp [ht])⟩
  | functionBare hname _ _ _ _ _ ih =>
      exact ⟨⟨hname, hspelled _ (by simp)⟩, by simp, ih fun t ht => hspelled t (by simp [ht])⟩
  | function hname _ _ _ _ _ _ _ ih ih₂ =>
      exact ⟨⟨hname, hspelled _ (by simp)⟩, ih fun t ht => hspelled t (by simp [ht]),
        ih₂ fun t ht => hspelled t (by simp [ht])⟩
  | parameter hname =>
      have hfirst : Token.IsName _ := ⟨hname, hspelled _ (by simp)⟩
      simpa [Symbol.Spelled] using hfirst
  | parameters hname _ _ ih =>
      have hothers := ih fun t ht => hspelled t (by simp [ht])
      exact List.forall_mem_cons.mpr ⟨⟨hname, hspelled _ (by simp)⟩, hothers⟩
  | declarations _ _ ih ih₂ | functions _ _ ih ih₂ | arguments _ _ _ ih ih₂
  | callWith _ _ _ _ _ ih ih₂ | ifThen _ _ _ _ _ _ ih ih₂ | whileStatement _ _ _ _ _ ih ih₂ =>
      exact ⟨ih fun t ht => hspelled t (by simp [ht]), ih₂ fun t ht => hspelled t (by simp [ht])⟩
  | set _ _ hname _ _ ih ih₂ =>
      exact ⟨ih fun t ht => hspelled t (by simp [ht]), ⟨hname, hspelled _ (by simp)⟩,
        ih₂ fun t ht => hspelled t (by simp [ht])⟩
  | get _ _ hname ih =>
      exact ⟨ih fun t ht => hspelled t (by simp [ht]), hname, hspelled _ (by simp)⟩
  | unary hkind _ ih =>
      have hform := (hspelled _ List.mem_cons_self).mem_forms (by decide : Token.unaryForms ⊆ _)
        (by simpa [Token.unaryForms] using hkind)
      exact ⟨hform, ih fun t ht => hspelled t (by simp [ht])⟩
  | join _ _ hjoins ih ih₂ =>
      exact hjoins.spelled (ih fun t ht => hspelled t (by simp [ht])) (hspelled _ (by simp))
        (ih₂ fun t ht => hspelled t (by simp [ht]))
  | ifElse _ _ _ _ _ _ _ ih ih₂ ih₃ =>
      exact ⟨ih fun t ht => hspelled t (by simp [ht]), ih₂ fun t ht => hspelled t (by simp [ht]),
        ih₃ fun t ht => hspelled t (by simp [ht])⟩
  | forStatement _ _ _ _ _ _ _ _ hform ih ih₂ ih₃ ih₄ =>
      exact hform.spelled (ih fun t ht => hspelled t (by simp [ht]))
        (ih₂ fun t ht => hspelled t (by simp [ht])) (ih₃ fun t ht => hspelled t (by simp [ht]))
        (ih₄ fun t ht => hspelled t (by simp [ht]))
  | ret hkind _ _ ih =>
      exact ⟨(hspelled _ (by simp)).form_eq hkind (by decide),
        ih fun t ht => hspelled t (by simp [ht])⟩
  | forVar _ ih | forExpr _ ih | argument _ ih | callBare _ _ _ ih =>
      exact ⟨ih fun t ht => hspelled t (by simp [ht]), trivial⟩
  | _ =>
      rename_i ih
      exact ih fun t ht => hspelled t (by simp [ht])

/-! ### Parts of trees -/

section

variable {P Q : Literal → Prop}

mutual

/-- Only what is true of the literals in a tree matters. -/
theorem Expr.Spelled.imp : {e : Expr} → e.Spelled P → (∀ l, .literal l ∈ e.nodes → P l → Q l) →
    e.Spelled Q
  | .literal value, h, himp => himp value (by simp [Expr.nodes]) h
  | .variable _ _, h, _ | .this _ _, h, _ | .super _ _ _, h, _ => h
  | .grouping inner, h, himp =>
      Expr.Spelled.imp (e := inner) h fun l hl => himp l (by simp [Expr.nodes, hl])
  | .unary _ _, h, himp | .assign _ _ _, h, himp =>
      ⟨h.1, Expr.Spelled.imp h.2 fun l hl => himp l (by simp [Expr.nodes, hl])⟩
  | .get _ _, h, himp =>
      ⟨Expr.Spelled.imp h.1 fun l hl => himp l (by simp [Expr.nodes, hl]), h.2⟩
  | .binary _ _ _, h, himp | .logical _ _ _, h, himp | .set _ _ _, h, himp =>
      ⟨Expr.Spelled.imp h.1 fun l hl => himp l (by simp [Expr.nodes, hl]), h.2.1,
        Expr.Spelled.imp h.2.2 fun l hl => himp l (by simp [Expr.nodes, hl])⟩
  | .call _ _ _, h, himp =>
      ⟨Expr.Spelled.imp h.1 fun l hl => himp l (by simp [Expr.nodes, hl]),
        Expr.SpelledEach.imp h.2 fun l hl => himp l (by simp [Expr.nodes, hl])⟩

theorem Expr.SpelledEach.imp : {es : List Expr} → Expr.SpelledEach P es →
    (∀ l, .literal l ∈ Expr.nodesEach es → P l → Q l) → Expr.SpelledEach Q es
  | [], _, _ => trivial
  | _ :: _, h, himp =>
      ⟨Expr.Spelled.imp h.1 fun l hl => himp l (by simp [Expr.nodesEach, hl]),
        Expr.SpelledEach.imp h.2 fun l hl => himp l (by simp [Expr.nodesEach, hl])⟩

end

/-- The literals of an expression where it stands. -/
theorem Expr.Spelled.imp_occurrences {e : Expr} (h : e.Spelled P) {around : List Enclosure}
    (himp : ∀ l a, ⟨.expr (.literal l), a⟩ ∈ e.occurrences around → P l → Q l) : e.Spelled Q :=
  h.imp fun l hl => himp l around (List.mem_map_of_mem hl)

theorem Expr.Spelled?.imp_occurrences {e : Option Expr} (h : Expr.Spelled? P e)
    {around : List Enclosure}
    (himp : ∀ l a, ⟨.expr (.literal l), a⟩ ∈ Expr.occurrences? around e → P l → Q l) :
    Expr.Spelled? Q e := by
  cases e with
  | none => trivial
  | some e => exact Expr.Spelled.imp_occurrences h himp

mutual

theorem Stmt.Spelled.imp : {s : Stmt} → s.Spelled P → {around : List Enclosure} →
    (∀ l a, ⟨.expr (.literal l), a⟩ ∈ s.occurrences around → P l → Q l) → s.Spelled Q
  | .expression e, h, _, himp | .print e, h, _, himp =>
      Expr.Spelled.imp_occurrences (e := e) h fun l a hl => himp l a (.tail _ hl)
  | .var _ _, h, _, himp | .ret _ _, h, _, himp =>
      ⟨h.1, h.2.imp_occurrences fun l a hl => himp l a (.tail _ hl)⟩
  | .block _, h, _, himp => Stmt.SpelledEach.imp h fun l a hl => himp l a (.tail _ hl)
  | .ifThen _ _, h, _, himp | .loop _ _, h, _, himp =>
      ⟨h.1.imp_occurrences fun l a hl => himp l a (.tail _ (List.mem_append_left _ hl)),
        Stmt.Spelled.imp h.2 fun l a hl => himp l a (.tail _ (List.mem_append_right _ hl))⟩
  | .ifElse _ _ _, h, _, himp =>
      ⟨h.1.imp_occurrences fun l a hl =>
          himp l a (.tail _ (List.mem_append_left _ (List.mem_append_left _ hl))),
        Stmt.Spelled.imp h.2.1 fun l a hl =>
          himp l a (.tail _ (List.mem_append_left _ (List.mem_append_right _ hl))),
        Stmt.Spelled.imp h.2.2 fun l a hl => himp l a (.tail _ (List.mem_append_right _ hl))⟩
  | .function decl, h, _, himp =>
      FunctionDecl.Spelled.imp (d := decl) h fun l a hl => himp l a (.tail _ hl)
  | .classDecl _ _ _, h, _, himp =>
      ⟨h.1, h.2.1.imp_occurrences fun l a hl => himp l a (.tail _ (List.mem_append_left _ hl)),
        FunctionDecl.SpelledEach.imp h.2.2 fun l a hl =>
          himp l a (.tail _ (List.mem_append_right _ hl))⟩

theorem Stmt.SpelledEach.imp : {ss : List Stmt} → Stmt.SpelledEach P ss →
    {around : List Enclosure} → {earlier : List Token} →
    (∀ l a, ⟨.expr (.literal l), a⟩ ∈ Stmt.occurrencesEach around earlier ss → P l → Q l) →
    Stmt.SpelledEach Q ss
  | [], _, _, _, _ => trivial
  | _ :: _, h, _, _, himp =>
      ⟨Stmt.Spelled.imp h.1 fun l a hl => himp l a (List.mem_append_left _ hl),
        Stmt.SpelledEach.imp h.2 fun l a hl => himp l a (List.mem_append_right _ hl)⟩

theorem FunctionDecl.Spelled.imp : {d : FunctionDecl} → d.Spelled P → {around : List Enclosure} →
    (∀ l a, ⟨.expr (.literal l), a⟩ ∈ d.occurrences around → P l → Q l) → d.Spelled Q
  | .mk _ _ _, h, _, himp =>
      ⟨h.1, h.2.1,
        Stmt.SpelledEach.imp h.2.2 fun l a hl => himp l a (List.mem_append_right _ hl)⟩

theorem FunctionDecl.SpelledEach.imp : {ds : List FunctionDecl} → FunctionDecl.SpelledEach P ds →
    {around : List Enclosure} →
    (∀ l a, ⟨.expr (.literal l), a⟩ ∈ FunctionDecl.occurrencesEach around ds → P l → Q l) →
    FunctionDecl.SpelledEach Q ds
  | [], _, _, _ => trivial
  | _ :: _, h, _, himp =>
      ⟨FunctionDecl.Spelled.imp h.1 fun l a hl => himp l a (List.mem_append_left _ hl),
        FunctionDecl.SpelledEach.imp h.2 fun l a hl => himp l a (List.mem_append_right _ hl)⟩

end

variable {t : Stmt} {a : List Enclosure}

theorem Expr.stmt_not_mem {around : List Enclosure} {e : Expr} :
    ⟨.stmt t, a⟩ ∉ e.occurrences around := by
  simp [Expr.occurrences]

theorem Expr.stmt_not_mem? {around : List Enclosure} {e : Option Expr} :
    ⟨.stmt t, a⟩ ∉ Expr.occurrences? around e := by
  cases e with
  | none => simp [Expr.occurrences?]
  | some e => exact Expr.stmt_not_mem

theorem Token.stmt_not_mem {around : List Enclosure} {earlier params : List Token} :
    ⟨.stmt t, a⟩ ∉ Token.occurrences around earlier params := by
  induction params generalizing earlier with
  | nil => simp [Token.occurrences]
  | cons p params ih => simp [Token.occurrences, ih]

mutual

/-- The statements in a statement are spelled when it is. -/
theorem Stmt.Spelled.part : {s : Stmt} → s.Spelled P → {around : List Enclosure} →
    ⟨.stmt t, a⟩ ∈ s.occurrences around → t.Spelled P := by
  intro s h around ht
  unfold Stmt.occurrences at ht
  -- Either it is the statement itself, or it stands in one of its parts.
  rcases List.mem_cons.mp ht with heq | ht
  · cases heq
    exact h
  match s, h, ht with
  | .expression _, _, ht | .print _, _, ht => exact absurd ht Expr.stmt_not_mem
  | .var _ _, _, ht | .ret _ _, _, ht => exact absurd ht Expr.stmt_not_mem?
  | .block _, h, ht => exact Stmt.SpelledEach.part h ht
  | .ifThen _ _, h, ht | .loop _ _, h, ht =>
      exact Stmt.Spelled.part h.2 ((List.mem_append.mp ht).resolve_left Expr.stmt_not_mem)
  | .ifElse _ _ _, h, ht =>
      rcases List.mem_append.mp ht with ht | ht
      · exact Stmt.Spelled.part h.2.1 ((List.mem_append.mp ht).resolve_left Expr.stmt_not_mem)
      · exact Stmt.Spelled.part h.2.2 ht
  | .function decl, h, ht => exact FunctionDecl.Spelled.part (d := decl) h ht
  | .classDecl _ _ _, h, ht =>
      have hmethods := (List.mem_append.mp ht).resolve_left Expr.stmt_not_mem?
      exact FunctionDecl.SpelledEach.part h.2.2 hmethods

theorem Stmt.SpelledEach.part : {ss : List Stmt} → Stmt.SpelledEach P ss →
    {around : List Enclosure} → {earlier : List Token} →
    ⟨.stmt t, a⟩ ∈ Stmt.occurrencesEach around earlier ss → t.Spelled P
  | _ :: _, h, _, _, ht => by
      rcases List.mem_append.mp ht with ht | ht
      · exact Stmt.Spelled.part h.1 ht
      · exact Stmt.SpelledEach.part h.2 ht

theorem FunctionDecl.Spelled.part : {d : FunctionDecl} → d.Spelled P →
    {around : List Enclosure} → ⟨.stmt t, a⟩ ∈ d.occurrences around → t.Spelled P
  | .mk _ _ _, h, _, ht =>
      Stmt.SpelledEach.part h.2.2 ((List.mem_append.mp ht).resolve_left Token.stmt_not_mem)

theorem FunctionDecl.SpelledEach.part : {ds : List FunctionDecl} → FunctionDecl.SpelledEach P ds →
    {around : List Enclosure} →
    ⟨.stmt t, a⟩ ∈ FunctionDecl.occurrencesEach around ds → t.Spelled P
  | _ :: _, h, _, ht => by
      rcases List.mem_append.mp ht with ht | ht
      · exact FunctionDecl.Spelled.part h.1 ht
      · exact FunctionDecl.SpelledEach.part h.2 ht

end

end

end ScriptLang
