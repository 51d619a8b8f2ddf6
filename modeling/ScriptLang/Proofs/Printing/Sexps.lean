import ScriptLang.Proofs.Lexing.Characters
import ScriptLang.Stmt.Printer

/-! Words and lists in parentheses. No two of them have the same text, and a printed tree is the
text of one. -/

namespace ScriptLang

/-- A word, or a list in parentheses, perhaps with a word right in front of it. -/
inductive Sexp where
  | word (w : String)
  | list (head : String) (items : List Sexp)

namespace Sexp

/-! ### Texts -/

mutual

@[simp]
def text : Sexp → String
  | .word w => w
  | .list head items => head ++ "(" ++ textEach items ++ ")"

/-- Items with spaces between them. -/
@[simp]
def textEach : List Sexp → String
  | [] => ""
  | x :: xs => x.text ++ textAfter xs

/-- Items, each after a space. -/
@[simp]
def textAfter : List Sexp → String
  | [] => ""
  | x :: xs => " " ++ x.text ++ textAfter xs

end

/-- What may stand in words. -/
def isInner (c : Char) : Bool := c ≠ ' ' && c ≠ '(' && c ≠ ')'

mutual

/-- Words are not empty, and neither spaces nor parentheses stand in them. -/
def Clean : Sexp → Prop
  | .word w => w ≠ "" ∧ ∀ c ∈ w.toList, isInner c
  | .list head items => (∀ c ∈ head.toList, isInner c) ∧ CleanEach items

def CleanEach : List Sexp → Prop
  | [] => True
  | x :: xs => x.Clean ∧ CleanEach xs

end

/-- What may stand behind an item: nothing, a space or a closing parenthesis. -/
def Stops (rest : List Char) : Prop := ∀ c ∈ rest.head?, c = ' ' ∨ c = ')'

theorem Stops.isInner {rest : List Char} (h : Stops rest) :
    ∀ c ∈ rest.head?, isInner c = false := by
  intro c hc
  rcases h c hc with rfl | rfl <;> rfl

theorem stops_textAfter (xs : List Sexp) {rest : List Char} (h : Stops rest) :
    Stops ((textAfter xs).toList ++ rest) := by
  cases xs with
  | nil => simpa [textAfter] using h
  | cons x xs => simp [textAfter, Stops]

/-- An item does not begin with a closing parenthesis. -/
theorem Clean.head_ne {x : Sexp} (h : x.Clean) (rest : List Char) :
    (x.text.toList ++ rest).head? ≠ some ')' := by
  have hinner {w : String} (hw : ∀ c ∈ w.toList, isInner c) (hne : w ≠ "") (rest : List Char) :
      (w.toList ++ rest).head? ≠ some ')' := by
    obtain ⟨c, cs, hcs⟩ := List.exists_cons_of_ne_nil (mt String.toList_eq_nil_iff.mp hne)
    rw [hcs] at hw ⊢
    rintro heq
    cases heq
    exact absurd (hw ')' List.mem_cons_self) (by decide)
  cases x with
  | word w => exact hinner h.2 h.1 rest
  | list head items =>
      by_cases hempty : head = ""
      · simp [text, hempty]
      · have := hinner h.1 hempty ("(" ++ textEach items ++ ")").toList
        simpa [text] using this

theorem toList_list (head : String) (items : List Sexp) (rest : List Char) :
    (text (.list head items)).toList ++ rest =
      head.toList ++ '(' :: ((textEach items).toList ++ ')' :: rest) := by
  simp [text]

/-- A list does not end like a word. -/
theorem word_ne_list {w head : String} (hw : ∀ c ∈ w.toList, isInner c)
    (hhead : ∀ c ∈ head.toList, isInner c) (items : List Sexp) {rest : List Char}
    (hrest : Stops rest) (rest' : List Char) :
    w.toList ++ rest ≠ (text (.list head items)).toList ++ rest' := by
  rw [toList_list]
  intro h
  obtain ⟨-, rfl⟩ := Piece.append_inj_of_class h hw hrest.isInner hhead (by simp [isInner])
  simp [Stops] at hrest

mutual

/-- Where the text of an item ends can be told from what stands behind it. -/
theorem text_unique : (x y : Sexp) → x.Clean → y.Clean → {rest rest' : List Char} →
    Stops rest → Stops rest' → x.text.toList ++ rest = y.text.toList ++ rest' →
    x = y ∧ rest = rest'
  | .word w, .word w', hx, hy, rest, rest', hrest, hrest', h => by
      obtain ⟨hword, hrest⟩ := Piece.append_inj_of_class h hx.2 hrest.isInner hy.2 hrest'.isInner
      exact ⟨congrArg Sexp.word (String.toList_inj.mp hword), hrest⟩
  | .word w, .list head items, hx, hy, rest, rest', hrest, _, h =>
      absurd h (word_ne_list hx.2 hy.1 items hrest rest')
  | .list head items, .word w, hx, hy, rest, rest', _, hrest', h =>
      absurd h.symm (word_ne_list hy.2 hx.1 items hrest' rest)
  | .list head items, .list head' items', hx, hy, rest, rest', _, _, h => by
      rw [toList_list, toList_list] at h
      obtain ⟨hhead, hitems⟩ := Piece.append_inj_of_class h hx.1 (by simp [isInner]) hy.1
        (by simp [isInner])
      obtain ⟨rfl, hrest⟩ := textEach_unique items items' hx.2 hy.2 (List.cons.inj hitems).2
      rw [String.toList_inj.mp hhead]
      exact ⟨rfl, hrest⟩

theorem textEach_unique : (xs ys : List Sexp) → CleanEach xs → CleanEach ys →
    {rest rest' : List Char} →
    (textEach xs).toList ++ ')' :: rest = (textEach ys).toList ++ ')' :: rest' →
    xs = ys ∧ rest = rest'
  | [], [], _, _, rest, rest', h => by simpa [textEach] using h
  | [], y :: ys, _, hy, rest, rest', h => by
      have hhead := hy.1.head_ne ((textAfter ys).toList ++ ')' :: rest')
      simp only [textEach, String.toList_append, List.append_assoc] at h
      rw [← h] at hhead
      exact absurd rfl hhead
  | x :: xs, [], hx, _, rest, rest', h => by
      have hhead := hx.1.head_ne ((textAfter xs).toList ++ ')' :: rest)
      simp only [textEach, String.toList_append, List.append_assoc] at h
      rw [h] at hhead
      exact absurd rfl hhead
  | x :: xs, y :: ys, hx, hy, rest, rest', h => by
      simp only [textEach, String.toList_append, List.append_assoc] at h
      obtain ⟨rfl, hafter⟩ := text_unique x y hx.1 hy.1 (stops_textAfter xs (by simp [Stops]))
        (stops_textAfter ys (by simp [Stops])) h
      obtain ⟨rfl, hrest⟩ := textAfter_unique xs ys hx.2 hy.2 hafter
      exact ⟨rfl, hrest⟩

theorem textAfter_unique : (xs ys : List Sexp) → CleanEach xs → CleanEach ys →
    {rest rest' : List Char} →
    (textAfter xs).toList ++ ')' :: rest = (textAfter ys).toList ++ ')' :: rest' →
    xs = ys ∧ rest = rest'
  | [], [], _, _, rest, rest', h => by simpa [textAfter] using h
  | [], y :: ys, _, _, rest, rest', h => by simp [textAfter] at h
  | x :: xs, [], _, _, rest, rest', h => by simp [textAfter] at h
  | x :: xs, y :: ys, hx, hy, rest, rest', h => by
      simp only [textAfter, String.toList_append, List.append_assoc] at h
      obtain ⟨rfl, hafter⟩ := text_unique x y hx.1 hy.1 (stops_textAfter xs (by simp [Stops]))
        (stops_textAfter ys (by simp [Stops])) (List.append_cancel_left h)
      obtain ⟨rfl, hrest⟩ := textAfter_unique xs ys hx.2 hy.2 hafter
      exact ⟨rfl, hrest⟩

end

/-- No two clean words or lists have the same text. -/
theorem text_injective {x y : Sexp} (hx : x.Clean) (hy : y.Clean) (h : x.text = y.text) : x = y :=
  have hend : Stops [] := by simp [Stops]
  (text_unique x y hx hy hend hend (by rw [h])).1

end Sexp

/-! ### Trees -/

mutual

def Expr.sexp : Expr → Sexp
  | .literal value => .word value.render
  | .grouping inner => .list "" [.word "group", inner.sexp]
  | .unary operator right => .list "" [.word operator.lexeme, right.sexp]
  | .binary left operator right => .list "" [.word operator.lexeme, left.sexp, right.sexp]
  | .logical left operator right => .list "" [.word operator.lexeme, left.sexp, right.sexp]
  | .variable _ name => .word name.lexeme
  | .assign _ name value => .list "" [.word "=", .word name.lexeme, value.sexp]
  | .call callee _ arguments => .list "" (.word "call" :: callee.sexp :: Expr.sexpEach arguments)
  | .get object name => .list "" [.word ".", object.sexp, .word name.lexeme]
  | .set object name value =>
    .list "" [.word "=", .list "" [.word ".", object.sexp, .word name.lexeme], value.sexp]
  | .this _ _ => .word "this"
  | .super _ _ method => .list "" [.word "super", .word method.lexeme]

def Expr.sexpEach : List Expr → List Sexp
  | [] => []
  | e :: es => e.sexp :: Expr.sexpEach es

end

mutual

def Stmt.sexp : Stmt → Sexp
  | .expression e => .list "" [.word ";", e.sexp]
  | .print e => .list "" [.word "print", e.sexp]
  | .var name none => .list "" [.word "var", .word name.lexeme]
  | .var name (some e) => .list "" [.word "var", .word name.lexeme, e.sexp]
  | .block body => .list "" (.word "block" :: Stmt.sexpEach body)
  | .ifThen condition thenBranch => .list "" [.word "if", condition.sexp, thenBranch.sexp]
  | .ifElse condition thenBranch elseBranch =>
    .list "" [.word "if-else", condition.sexp, thenBranch.sexp, elseBranch.sexp]
  | .loop condition body => .list "" [.word "while", condition.sexp, body.sexp]
  | .function decl => decl.sexp "fun"
  | .ret _ none => .list "" [.word "return"]
  | .ret _ (some e) => .list "" [.word "return", e.sexp]
  | .classDecl name none methods =>
    .list "" (.word "class" :: .word name.lexeme :: FunctionDecl.sexpEach methods)
  | .classDecl name (some superclass) methods =>
    .list "" (.word "class" :: .word name.lexeme :: .word "<" :: superclass.sexp ::
      FunctionDecl.sexpEach methods)

def Stmt.sexpEach : List Stmt → List Sexp
  | [] => []
  | s :: ss => s.sexp :: Stmt.sexpEach ss

def FunctionDecl.sexp (word : String) : FunctionDecl → Sexp
  | .mk name params body =>
    .list "" (.word word :: .list name.lexeme (params.map fun p => .word p.lexeme) ::
      Stmt.sexpEach body)

def FunctionDecl.sexpEach : List FunctionDecl → List Sexp
  | [] => []
  | d :: ds => d.sexp "method" :: FunctionDecl.sexpEach ds

end

/-! ### Printed trees -/

open Sexp

mutual

theorem Expr.render_eq : (e : Expr) → e.render = e.sexp.text
  | .literal _ | .variable _ _ | .this _ _ => rfl
  | .super _ _ _ => by simp [Expr.render, Expr.sexp, ← String.append_assoc]
  | .grouping e | .unary _ e | .assign _ _ e | .get e _ => by
      simp [Expr.render, Expr.sexp, e.render_eq, ← String.append_assoc]
  | .binary e _ e' | .logical e _ e' => by
      simp [Expr.render, Expr.sexp, e.render_eq, e'.render_eq, ← String.append_assoc]
  | .set e _ e' => by
      apply String.toList_inj.mp
      simp [Expr.render, Expr.sexp, e.render_eq, e'.render_eq]
  | .call e _ es => by
      simp [Expr.render, Expr.sexp, e.render_eq, Expr.renderEach_eq es, ← String.append_assoc]

theorem Expr.renderEach_eq : (es : List Expr) → Expr.renderEach es = textAfter (Expr.sexpEach es)
  | [] => rfl
  | e :: es => by
      rw [Expr.renderEach, e.render_eq, Expr.renderEach_eq es, Expr.sexpEach, textAfter]

end

theorem renderParams_eq (params : List Token) :
    renderParams params = textEach (params.map fun p => .word p.lexeme) := by
  cases params with
  | nil => rfl
  | cons p params =>
      -- The first parameter is the only one without a space in front of it.
      induction params generalizing p with
      | nil => simp [renderParams]
      | cons q params ih =>
          have hrest := ih q
          simp only [renderParams, List.map_cons, String.intercalate_cons_cons] at hrest ⊢
          simp [hrest, String.append_assoc]

mutual

theorem Stmt.render_eq : (s : Stmt) → s.render = s.sexp.text
  | .ret _ none | .var _ none => by simp [Stmt.render, Stmt.sexp, ← String.append_assoc]
  | .expression e | .print e | .ret _ (some e) | .var _ (some e) => by
      simp [Stmt.render, Stmt.sexp, e.render_eq, ← String.append_assoc]
  | .block ss => by simp [Stmt.render, Stmt.sexp, Stmt.renderEach_eq ss, ← String.append_assoc]
  | .ifThen e s | .loop e s => by
      simp [Stmt.render, Stmt.sexp, e.render_eq, s.render_eq, ← String.append_assoc]
  | .ifElse e s s' => by
      simp [Stmt.render, Stmt.sexp, e.render_eq, s.render_eq, s'.render_eq, ← String.append_assoc]
  | .function d => d.render_eq "fun"
  | .classDecl _ none ds => by
      simp [Stmt.render, Stmt.sexp, FunctionDecl.renderEach_eq ds, ← String.append_assoc]
  | .classDecl _ (some e) ds => by
      apply String.toList_inj.mp
      simp [Stmt.render, Stmt.sexp, e.render_eq, FunctionDecl.renderEach_eq ds]

theorem Stmt.renderEach_eq : (ss : List Stmt) → Stmt.renderEach ss = textAfter (Stmt.sexpEach ss)
  | [] => rfl
  | s :: ss => by
      rw [Stmt.renderEach, s.render_eq, Stmt.renderEach_eq ss, Stmt.sexpEach, textAfter]

theorem FunctionDecl.render_eq (word : String) : (d : FunctionDecl) →
    d.render word = (d.sexp word).text
  | .mk _ params ss => by
      apply String.toList_inj.mp
      simp [FunctionDecl.render, FunctionDecl.sexp, renderParams_eq, Stmt.renderEach_eq ss]

theorem FunctionDecl.renderEach_eq : (ds : List FunctionDecl) →
    FunctionDecl.renderEach ds = textAfter (FunctionDecl.sexpEach ds)
  | [] => rfl
  | d :: ds => by
      rw [FunctionDecl.renderEach, d.render_eq, FunctionDecl.renderEach_eq ds,
        FunctionDecl.sexpEach, textAfter]

end

end ScriptLang
