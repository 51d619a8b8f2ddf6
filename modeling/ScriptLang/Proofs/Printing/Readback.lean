import ScriptLang.Proofs.Printing.Spelling

/-! Printed trees are read back. What a tree was before it was printed can be told from its text, up
to the ids and lines in it and the closing parentheses of calls. -/

namespace ScriptLang

/-! ### What is not printed -/

/-- The token without its line. -/
def Token.erase (t : Token) : Token := { t with line := 0 }

mutual

/-- The expression without ids, lines and the closing parentheses of calls. -/
def Expr.erase : Expr → Expr
  | .literal value => .literal value
  | .grouping inner => .grouping inner.erase
  | .unary operator right => .unary operator.erase right.erase
  | .binary left operator right => .binary left.erase operator.erase right.erase
  | .logical left operator right => .logical left.erase operator.erase right.erase
  | .variable _ name => .variable 0 name.erase
  | .assign _ name value => .assign 0 name.erase value.erase
  | .call callee _ arguments => .call callee.erase ⟨.rightParen, ")", 0⟩ (Expr.eraseEach arguments)
  | .get object name => .get object.erase name.erase
  | .set object name value => .set object.erase name.erase value.erase
  | .this _ keyword => .this 0 keyword.erase
  | .super _ keyword method => .super 0 keyword.erase method.erase

def Expr.eraseEach : List Expr → List Expr
  | [] => []
  | e :: es => e.erase :: Expr.eraseEach es

end

mutual

/-- The statement without ids, lines and the closing parentheses of calls. -/
def Stmt.erase : Stmt → Stmt
  | .expression e => .expression e.erase
  | .print e => .print e.erase
  | .var name initializer => .var name.erase (initializer.map Expr.erase)
  | .block body => .block (Stmt.eraseEach body)
  | .ifThen condition thenBranch => .ifThen condition.erase thenBranch.erase
  | .ifElse condition thenBranch elseBranch =>
    .ifElse condition.erase thenBranch.erase elseBranch.erase
  | .loop condition body => .loop condition.erase body.erase
  | .function decl => .function decl.erase
  | .ret keyword value => .ret keyword.erase (value.map Expr.erase)
  | .classDecl name superclass methods =>
    .classDecl name.erase (superclass.map Expr.erase) (FunctionDecl.eraseEach methods)

def Stmt.eraseEach : List Stmt → List Stmt
  | [] => []
  | s :: ss => s.erase :: Stmt.eraseEach ss

def FunctionDecl.erase : FunctionDecl → FunctionDecl
  | .mk name params body => .mk name.erase (params.map Token.erase) (Stmt.eraseEach body)

def FunctionDecl.eraseEach : List FunctionDecl → List FunctionDecl
  | [] => []
  | d :: ds => d.erase :: FunctionDecl.eraseEach ds

end

/-! ### Reading words and lists -/

/-- The token that is written so, on no line. -/
def Token.ofText (text : String) : Token := ⟨(fixed.lookup text).getD .identifier, text, 0⟩

section

variable (number : String → Float)

/-- The expression that is printed as a word, where `number` reads numbers. -/
def Expr.ofWord (w : String) : Expr :=
  if w.toList.head?.any fun c => c.isDigit || c = '-' then .literal (.number (number w))
  else if w = "nil" then .literal .nil
  else if w = "true" then .literal (.bool true)
  else if w = "false" then .literal (.bool false)
  else if w = "this" then .this 0 (.ofText w)
  else .variable 0 (.ofText w)

namespace Sexp

mutual

/-- The expression that is printed so. -/
def expr? : Sexp → Option Expr
  | .word w => some (.ofWord number w)
  | .list _ [.word "group", x] => x.expr?.map .grouping
  | .list _ [.word "super", .word m] => some (.super 0 (.ofText "super") (.ofText m))
  | .list _ [.word ".", x, .word n] => x.expr?.map fun object => .get object (.ofText n)
  | .list _ [.word "=", .word n, x] => x.expr?.map (.assign 0 (.ofText n))
  | .list _ [.word "=", .list _ [.word ".", x, .word n], y] => do
    return .set (← x.expr?) (.ofText n) (← y.expr?)
  | .list _ (.word "call" :: x :: xs) => do
    return .call (← x.expr?) ⟨.rightParen, ")", 0⟩ (← exprs? xs)
  | .list _ [.word w, x] => x.expr?.map (.unary (.ofText w))
  | .list _ [.word w, x, y] => do
    if w = "and" ∨ w = "or" then return .logical (← x.expr?) (.ofText w) (← y.expr?)
    else return .binary (← x.expr?) (.ofText w) (← y.expr?)
  | .list _ _ => none

def exprs? : List Sexp → Option (List Expr)
  | [] => some []
  | x :: xs => do return (← x.expr?) :: (← exprs? xs)

end

/-- The parameters that are printed so. -/
def params? : List Sexp → Option (List Token)
  | [] => some []
  | .word w :: xs => (params? xs).map (.ofText w :: ·)
  | .list _ _ :: _ => none

mutual

/-- The statement that is printed so. -/
def stmt? : Sexp → Option Stmt
  | .list _ [.word ";", x] => (x.expr? number).map .expression
  | .list _ [.word "print", x] => (x.expr? number).map .print
  | .list _ [.word "var", .word n] => some (.var (.ofText n) none)
  | .list _ [.word "var", .word n, x] => (x.expr? number).map fun e => .var (.ofText n) (some e)
  | .list _ (.word "block" :: xs) => (stmts? xs).map .block
  | .list _ [.word "if", x, y] => do return .ifThen (← x.expr? number) (← y.stmt?)
  | .list _ [.word "if-else", x, y, z] => do
    return .ifElse (← x.expr? number) (← y.stmt?) (← z.stmt?)
  | .list _ [.word "while", x, y] => do return .loop (← x.expr? number) (← y.stmt?)
  | .list _ (.word "fun" :: .list n ps :: xs) => do
    return .function (.mk (.ofText n) (← params? ps) (← stmts? xs))
  | .list _ [.word "return"] => some (.ret (.ofText "return") none)
  | .list _ [.word "return", x] => (x.expr? number).map fun e => .ret (.ofText "return") (some e)
  | .list _ (.word "class" :: .word n :: .word "<" :: x :: xs) => do
    return .classDecl (.ofText n) (some (← x.expr? number)) (← methods? xs)
  | .list _ (.word "class" :: .word n :: xs) => (methods? xs).map (.classDecl (.ofText n) none)
  | _ => none

def stmts? : List Sexp → Option (List Stmt)
  | [] => some []
  | x :: xs => do return (← x.stmt?) :: (← stmts? xs)

/-- The methods that are printed so. -/
def methods? : List Sexp → Option (List FunctionDecl)
  | [] => some []
  | .list _ (.word "method" :: .list n ps :: xs) :: ys => do
    return .mk (.ofText n) (← params? ps) (← stmts? xs) :: (← methods? ys)
  | _ :: _ => none

end

end Sexp

end

/-! ### Words -/

theorem Token.ofText_of_mem {t : Token} {forms : List (String × Kind)}
    (h : (t.lexeme, t.kind) ∈ forms) (hforms : forms ⊆ fixed) :
    Token.ofText t.lexeme = t.erase := by
  have hlookup : ∀ p ∈ fixed, fixed.lookup p.1 = some p.2 := by decide
  simp only [ofText, hlookup _ (hforms h), Option.getD_some]
  rfl

theorem Token.IsName.ofText {t : Token} (h : t.IsName) : Token.ofText t.lexeme = t.erase := by
  have hmarks : ∀ p ∈ Kind.marks, ∀ b ∈ (encode p.1.toList).head?, isLetter b = false := by
    decide +kernel
  -- Marks begin with no letter, and keywords are no names.
  have hne : ∀ p ∈ fixed, t.lexeme != p.1 := by
    intro p hp
    rw [bne_iff_ne]
    rcases List.mem_append.mp hp with hp | hp
    · obtain ⟨b, more, hbytes, hfirst, -⟩ := h.bytes
      intro heq
      have hnot := hmarks p hp b (by rw [← heq, hbytes]; rfl)
      rw [hfirst] at hnot
      cases hnot
    · exact h.ne_keyword hp
  have hlookup : fixed.lookup t.lexeme = none := List.lookup_eq_none_iff.mpr hne
  simp only [Token.ofText, hlookup, Option.getD_none, ← h.kind]
  rfl

/-- A literal that is printed as a word of its own. -/
def Literal.IsWord : Literal → Prop
  | .string _ => False
  | .number x => ∃ negative m e, Number.parts x = .finite negative m e
  | _ => True

/-! ### Reading back -/

section

variable {number : String → Float}

/-- A literal is read back when numbers are. -/
theorem Literal.IsWord.ofWord (hnumber : Function.LeftInverse number Literal.numberText)
    {l : Literal} (h : l.IsWord) : Expr.ofWord number l.render = .literal l := by
  cases l with
  | nil => rfl
  | bool b => cases b <;> rfl
  | string => exact h.elim
  | number x =>
      obtain ⟨negative, m, e, hparts⟩ := h
      obtain ⟨⟨c, cs, hcs, hfirst⟩, -⟩ := numberText_chars hparts
      have hnumeral : ((numberText x).toList.head?.any fun c => c.isDigit || c = '-') = true := by
        simpa [hcs] using hfirst
      rw [Literal.render, Expr.ofWord, if_pos hnumeral, hnumber x]

theorem Token.IsName.ofWord {t : Token} (h : t.IsName) :
    Expr.ofWord number t.lexeme = .variable 0 t.erase := by
  have hnumeral : (t.lexeme.toList.head?.any fun c => c.isDigit || c = '-') = false := by
    rw [Option.any_eq_false]
    intro c hc
    simpa using h.head c hc
  have hwords : ∀ w ∈ ["nil", "true", "false", "this"], t.lexeme ≠ w := by
    have hreserved : ∀ w ∈ ["nil", "true", "false", "this"], ∃ p ∈ Kind.keywords, p.1 = w := by
      decide
    intro w hw
    obtain ⟨p, hp, rfl⟩ := hreserved w hw
    exact h.ne_keyword hp
  simp only [List.forall_mem_cons] at hwords
  simp [Expr.ofWord, hnumeral, hwords, h.ofText]

theorem Token.ofText_of_eq {t : Token} {text : String} {kind : Kind}
    (h : (t.lexeme, t.kind) = (text, kind)) (hfixed : (text, kind) ∈ fixed) :
    Token.ofText text = t.erase := by
  cases h
  exact ofText_of_mem hfixed fun _ hp => hp

namespace Sexp

variable {w : String}

theorem expr?_unary (hw : w ∈ Token.unaryForms.map Prod.fst) (x : Sexp) :
    (list "" [.word w, x]).expr? number = (x.expr? number).map (.unary (.ofText w)) := by
  simp only [Token.unaryForms, List.map_cons, List.map_nil, List.mem_cons, List.not_mem_nil,
    or_false] at hw
  rcases hw with rfl | rfl <;> simp [expr?]

theorem expr?_binary (hw : w ∈ Token.binaryForms.map Prod.fst) (x y : Sexp) :
    (list "" [.word w, x, y]).expr? number =
      (x.expr? number).bind fun left => (y.expr? number).map (.binary left (.ofText w)) := by
  simp only [Token.binaryForms, List.map_cons, List.map_nil, List.mem_cons, List.not_mem_nil,
    or_false] at hw
  rcases hw with rfl | rfl | rfl | rfl | rfl | rfl | rfl | rfl | rfl | rfl <;>
    simp [expr?, Option.map_eq_bind]

theorem expr?_logical (hw : w ∈ Token.logicalForms.map Prod.fst) (x y : Sexp) :
    (list "" [.word w, x, y]).expr? number =
      (x.expr? number).bind fun left => (y.expr? number).map (.logical left (.ofText w)) := by
  simp only [Token.logicalForms, List.map_cons, List.map_nil, List.mem_cons, List.not_mem_nil,
    or_false] at hw
  rcases hw with rfl | rfl <;> simp [expr?, Option.map_eq_bind]

/-- A class whose name is followed by a list has no superclass. -/
theorem stmt?_class {name : String} {xs : List Sexp}
    (h : ∀ x ∈ xs.head?, ∃ head items, x = list head items) :
    (list "" (.word "class" :: .word name :: xs)).stmt? number =
      (methods? number xs).map (.classDecl (.ofText name) none) := by
  cases xs with
  | nil => simp [stmt?]
  | cons x xs =>
      obtain ⟨head, items, rfl⟩ := h x rfl
      simp [stmt?]

end Sexp

theorem FunctionDecl.head_sexpEach (ds : List FunctionDecl) :
    ∀ x ∈ (FunctionDecl.sexpEach ds).head?, ∃ head items, x = Sexp.list head items := by
  cases ds with
  | nil => simp [FunctionDecl.sexpEach]
  | cons d ds =>
      cases d
      simp [FunctionDecl.sexpEach, FunctionDecl.sexp]

mutual

/-- An expression is read back from its printed form. -/
theorem Expr.Spelled.expr?_sexp (hnumber : Function.LeftInverse number Literal.numberText) :
    {e : Expr} → e.Spelled Literal.IsWord → e.sexp.expr? number = some e.erase
  | .literal _, h => congrArg some (Literal.IsWord.ofWord hnumber h)
  | .variable _ _, h => congrArg some (Token.IsName.ofWord h)
  | .this _ _, h => by
      have hkeyword := Token.ofText_of_eq h (by decide)
      rw [Expr.erase, ← hkeyword]
      rfl
  | .super _ _ _, h => by
      have hkeyword := Token.ofText_of_eq h.1 (by decide)
      simp [Expr.sexp, Sexp.expr?, hkeyword, h.2.ofText, Expr.erase]
  | .grouping inner, h => by
      simp [Expr.sexp, Sexp.expr?, Expr.Spelled.expr?_sexp hnumber (e := inner) h, Expr.erase]
  | .unary _ _, h => by
      rw [Expr.sexp, Sexp.expr?_unary (List.mem_map_of_mem h.1),
        Expr.Spelled.expr?_sexp hnumber h.2, Token.ofText_of_mem h.1 (by decide)]
      rfl
  | .binary _ _ _, h => by
      rw [Expr.sexp, Sexp.expr?_binary (List.mem_map_of_mem h.2.1),
        Expr.Spelled.expr?_sexp hnumber h.1, Expr.Spelled.expr?_sexp hnumber h.2.2,
        Token.ofText_of_mem h.2.1 (by decide)]
      rfl
  | .logical _ _ _, h => by
      rw [Expr.sexp, Sexp.expr?_logical (List.mem_map_of_mem h.2.1),
        Expr.Spelled.expr?_sexp hnumber h.1, Expr.Spelled.expr?_sexp hnumber h.2.2,
        Token.ofText_of_mem h.2.1 (by decide)]
      rfl
  | .assign _ _ _, h => by
      simp [Expr.sexp, Sexp.expr?, h.1.ofText, Expr.Spelled.expr?_sexp hnumber h.2, Expr.erase]
  | .get _ _, h => by
      simp [Expr.sexp, Sexp.expr?, h.2.ofText, Expr.Spelled.expr?_sexp hnumber h.1, Expr.erase]
  | .set _ _ _, h => by
      simp [Expr.sexp, Sexp.expr?, h.2.1.ofText, Expr.Spelled.expr?_sexp hnumber h.1,
        Expr.Spelled.expr?_sexp hnumber h.2.2, Expr.erase]
  | .call _ _ _, h => by
      simp [Expr.sexp, Sexp.expr?, Expr.Spelled.expr?_sexp hnumber h.1,
        Expr.SpelledEach.exprs?_sexp hnumber h.2, Expr.erase]

theorem Expr.SpelledEach.exprs?_sexp (hnumber : Function.LeftInverse number Literal.numberText) :
    {es : List Expr} → Expr.SpelledEach Literal.IsWord es →
    Sexp.exprs? number (Expr.sexpEach es) = some (Expr.eraseEach es)
  | [], _ => rfl
  | _ :: _, h => by
      simp [Expr.sexpEach, Sexp.exprs?, Expr.Spelled.expr?_sexp hnumber h.1,
        Expr.SpelledEach.exprs?_sexp hnumber h.2, Expr.eraseEach]

end

theorem Sexp.params?_sexp {params : List Token} (h : ∀ p ∈ params, p.IsName) :
    Sexp.params? (params.map fun p => .word p.lexeme) = some (params.map Token.erase) := by
  induction params with
  | nil => rfl
  | cons p params ih =>
      obtain ⟨hfirst, hothers⟩ := List.forall_mem_cons.mp h
      simp [Sexp.params?, ih hothers, hfirst.ofText]

mutual

/-- A statement is read back from its printed form. -/
theorem Stmt.Spelled.stmt?_sexp (hnumber : Function.LeftInverse number Literal.numberText) :
    {s : Stmt} → s.Spelled Literal.IsWord → s.sexp.stmt? number = some s.erase
  | .expression e, h | .print e, h => by
      simp [Stmt.sexp, Sexp.stmt?, Expr.Spelled.expr?_sexp hnumber (e := e) h, Stmt.erase]
  | .var _ none, h => by simp [Stmt.sexp, Sexp.stmt?, h.1.ofText, Stmt.erase]
  | .var _ (some e), h => by
      simp [Stmt.sexp, Sexp.stmt?, h.1.ofText, Expr.Spelled.expr?_sexp hnumber (e := e) h.2,
        Stmt.erase]
  | .block _, h => by
      simp [Stmt.sexp, Sexp.stmt?, Stmt.SpelledEach.stmts?_sexp hnumber h, Stmt.erase]
  | .ifThen _ _, h | .loop _ _, h => by
      simp [Stmt.sexp, Sexp.stmt?, h.1.expr?_sexp hnumber, Stmt.Spelled.stmt?_sexp hnumber h.2,
        Stmt.erase]
  | .ifElse _ _ _, h => by
      simp [Stmt.sexp, Sexp.stmt?, h.1.expr?_sexp hnumber, Stmt.Spelled.stmt?_sexp hnumber h.2.1,
        Stmt.Spelled.stmt?_sexp hnumber h.2.2, Stmt.erase]
  | .function (.mk _ _ _), h => by
      simp [Stmt.sexp, FunctionDecl.sexp, Sexp.stmt?, h.1.ofText, Sexp.params?_sexp h.2.1,
        Stmt.SpelledEach.stmts?_sexp hnumber h.2.2, Stmt.erase, FunctionDecl.erase]
  | .ret _ none, h => by
      have hkeyword := Token.ofText_of_eq h.1 (by decide)
      simp [Stmt.sexp, Sexp.stmt?, hkeyword, Stmt.erase]
  | .ret _ (some e), h => by
      have hkeyword := Token.ofText_of_eq h.1 (by decide)
      simp [Stmt.sexp, Sexp.stmt?, hkeyword, Expr.Spelled.expr?_sexp hnumber (e := e) h.2,
        Stmt.erase]
  | .classDecl _ none ds, h => by
      rw [Stmt.sexp, Sexp.stmt?_class (FunctionDecl.head_sexpEach ds), h.1.ofText,
        FunctionDecl.SpelledEach.methods?_sexp hnumber h.2.2]
      rfl
  | .classDecl _ (some e) _, h => by
      simp [Stmt.sexp, Sexp.stmt?, h.1.ofText, Expr.Spelled.expr?_sexp hnumber (e := e) h.2.1,
        FunctionDecl.SpelledEach.methods?_sexp hnumber h.2.2, Stmt.erase]

theorem Stmt.SpelledEach.stmts?_sexp (hnumber : Function.LeftInverse number Literal.numberText) :
    {ss : List Stmt} → Stmt.SpelledEach Literal.IsWord ss →
    Sexp.stmts? number (Stmt.sexpEach ss) = some (Stmt.eraseEach ss)
  | [], _ => rfl
  | _ :: _, h => by
      simp [Stmt.sexpEach, Sexp.stmts?, Stmt.Spelled.stmt?_sexp hnumber h.1,
        Stmt.SpelledEach.stmts?_sexp hnumber h.2, Stmt.eraseEach]

theorem FunctionDecl.SpelledEach.methods?_sexp
    (hnumber : Function.LeftInverse number Literal.numberText) :
    {ds : List FunctionDecl} → FunctionDecl.SpelledEach Literal.IsWord ds →
    Sexp.methods? number (FunctionDecl.sexpEach ds) = some (FunctionDecl.eraseEach ds)
  | [], _ => rfl
  | .mk _ _ _ :: _, h => by
      simp [FunctionDecl.sexpEach, FunctionDecl.sexp, Sexp.methods?, h.1.1.ofText,
        Sexp.params?_sexp h.1.2.1, Stmt.SpelledEach.stmts?_sexp hnumber h.1.2.2,
        FunctionDecl.SpelledEach.methods?_sexp hnumber h.2, FunctionDecl.eraseEach,
        FunctionDecl.erase]

end

end

end ScriptLang
