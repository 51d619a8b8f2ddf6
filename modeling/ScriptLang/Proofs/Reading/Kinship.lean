import ScriptLang.Proofs.Grammar.Replies

/-! Reading from kindred cursors. What is read depends on the tokens that are left and on the next
id only. So a relation between cursors that agree in these is kept by every rule of the parser, if
it is kept by taking a token, handing out an id and noting an error. The second parser may have a
larger budget: where the first one does not run out, neither does the second. -/

namespace ScriptLang

/-- The cursor with more errors before all others. -/
def Cursor.noting (es : List SyntaxError) (c : Cursor) : Cursor :=
  { c with errors := c.errors ++ es }

/-- A relation between cursors before the same tokens that the steps of a parser keep. -/
structure Kinship where
  Kin : Cursor → Cursor → Prop
  rest {c c' : Cursor} (h : Kin c c') : c'.rest = c.rest
  eof {c c' : Cursor} (h : Kin c c') : c'.eof = c.eof
  take {c c' : Cursor} {t : Token} {rest : List Token} (h : Kin c c') (hrest : c.rest = t :: rest) :
    Kin { c with rest } { c' with rest }
  fresh {c c' : Cursor} (h : Kin c c') :
    Kin { c with nextId := c.nextId + 1 } { c' with nextId := c'.nextId + 1 }
  record {c c' : Cursor} (h : Kin c c') (e : SyntaxError) : Kin (c.record e) (c'.record e)

namespace Kinship

variable (K : Kinship) {c c' : Cursor}

theorem peek (h : K.Kin c c') : c'.peek = c.peek := by
  rw [Cursor.peek, Cursor.peek, K.rest h, K.eof h]

/-- Tokens are dropped one by one. -/
theorem drop {ts rest : List Token} (h : K.Kin c c') (hrest : c.rest = ts ++ rest) :
    K.Kin { c with rest } { c' with rest } := by
  induction ts generalizing c c' with
  | nil =>
      obtain rfl : c.rest = rest := hrest
      have hsame : { c' with rest := c.rest } = c' := by rw [← K.rest h]
      rwa [hsame]
  | cons t ts ih =>
      have hdropped := ih (K.take h hrest) rfl
      exact hdropped

theorem synchronize (h : K.Kin c c') : K.Kin c.synchronize c'.synchronize := by
  unfold Cursor.synchronize
  rw [K.rest h]
  cases hrest : c.rest with
  | nil => exact h
  | cons t rest =>
      obtain ⟨front, hfront⟩ := Cursor.boundary_suffix t rest
      refine K.drop h (?_ : c.rest = t :: front ++ Cursor.boundary t rest)
      rw [hrest, List.cons_append, hfront]

end Kinship

/-- A relation between cursors that have the same next id, too. -/
structure ExactKinship extends Kinship where
  nextId {c c' : Cursor} (h : Kin c c') : c'.nextId = c.nextId

namespace ExactKinship

/-- Cursors with more errors before all others. -/
def noting (es : List SyntaxError) : ExactKinship where
  Kin c c' := c' = c.noting es
  rest := by rintro c _ rfl; rfl
  eof := by rintro c _ rfl; rfl
  nextId := by rintro c _ rfl; rfl
  take := by rintro c _ t rest rfl _; rfl
  fresh := by rintro c _ rfl; rfl
  record := by rintro c _ rfl e; rfl

/-- The cursors that some cursor leads to, each with itself. -/
def onward (start : Cursor) : ExactKinship where
  Kin c c' := c' = c ∧ start.Leads c
  rest := by rintro c _ ⟨rfl, -⟩; rfl
  eof := by rintro c _ ⟨rfl, -⟩; rfl
  nextId := by rintro c _ ⟨rfl, -⟩; rfl
  take := by
    rintro c _ t rest ⟨rfl, h⟩ hrest
    exact ⟨rfl, h.trans (Cursor.Took.one hrest).leads⟩
  fresh := by
    rintro c _ ⟨rfl, h⟩
    exact ⟨rfl, h.trans (Cursor.Took.fresh _).leads⟩
  record := by
    rintro c _ ⟨rfl, h⟩ e
    exact ⟨rfl, h.record e⟩

end ExactKinship

/-! ### Kindred parsers -/

/-- Unless the first budget ran out, both replies have related values, or the same error, at
kindred cursors. -/
def Reply.Kindred {α : Type} (K : Kinship) (V : α → α → Prop) : Reply α → Reply α → Prop
  | .exhausted, _ => True
  | .ok a c, .ok a' c' => V a a' ∧ K.Kin c c'
  | .fail e c, .fail e' c' => e = e' ∧ K.Kin c c'
  | _, _ => False

namespace Parser

/-- The replies of a parser, each followed by another parser or passed on as a failure. -/
def andThen {α β : Type} (q : α → Parser β) : Reply α → Reply β
  | .ok a c => q a c
  | .fail e c => .fail e c
  | .exhausted => .exhausted

theorem bind_eq_andThen {α β : Type} (p : Parser α) (q : α → Parser β) (c : Cursor) :
    (p >>= q) c = andThen q (p c) := by
  rw [bind_apply]
  cases p c <;> rfl

/-- What recovery makes of a reply. -/
def recovered {α : Type} : Reply α → Reply (Option α)
  | .ok a c => .ok (some a) c
  | .fail e c => .ok none (c.record e).synchronize
  | .exhausted => .exhausted

theorem recover_eq_recovered {α : Type} (p : Parser α) (c : Cursor) :
    recover p c = recovered (p c) := by
  unfold recover
  cases p c <;> rfl

/-- From kindred cursors both parsers reply the same, with related values. -/
def Kindred {α : Type} (K : Kinship) (V : α → α → Prop) (p p' : Parser α) : Prop :=
  ∀ c c', K.Kin c c' → (p c).Kindred K V (p' c')

section Replies

variable {α β : Type} {K : Kinship} {V : α → α → Prop} {W : β → β → Prop}

theorem andThen_kindred {r r' : Reply α} {q q' : α → Parser β} (h : r.Kindred K V r')
    (hq : ∀ a a', V a a' → Kindred K W (q a) (q' a')) :
    (andThen q r).Kindred K W (andThen q' r') := by
  cases r with
  | exhausted => exact trivial
  | ok a d =>
      cases r' with
      | ok a' d' => exact hq a a' h.1 d d' h.2
      | fail e' d' | exhausted => exact h.elim
  | fail e d =>
      cases r' with
      | fail e' d' => exact h
      | ok a' d' | exhausted => exact h.elim

theorem recovered_kindred {V : Option α → Option α → Prop} {r r' : Reply α}
    (h : r.Kindred K (fun a a' => V (some a) (some a')) r') (hnone : V none none) :
    (recovered r).Kindred K V (recovered r') := by
  cases r with
  | exhausted => exact trivial
  | ok a d =>
      cases r' with
      | ok a' d' => exact h
      | fail e' d' | exhausted => exact h.elim
  | fail e d =>
      cases r' with
      | fail e' d' =>
          obtain ⟨rfl, hd⟩ := h
          exact ⟨hnone, K.synchronize (K.record hd e)⟩
      | ok a' d' | exhausted => exact h.elim

end Replies

namespace Kindred

variable {α β : Type} {K : Kinship} {V : α → α → Prop} {W : β → β → Prop} {p p' : Parser α}

theorem bind {q q' : α → Parser β} (h : Kindred K V p p')
    (hq : ∀ a a', V a a' → Kindred K W (q a) (q' a')) : Kindred K W (p >>= q) (p' >>= q') := by
  intro c c' hc
  rw [bind_eq_andThen, bind_eq_andThen]
  exact andThen_kindred (h c c' hc) hq

/-- Parsers that go on with the same value. -/
theorem seq {q q' : α → Parser β} (h : Kindred K Eq p p') (hq : ∀ a, Kindred K W (q a) (q' a)) :
    Kindred K W (p >>= q) (p' >>= q') := by
  refine h.bind ?_
  rintro a _ rfl
  exact hq a

theorem pure {a a' : α} (h : V a a') : Kindred K V (pure a) (pure a') := fun _ _ hc => ⟨h, hc⟩

theorem map {f : α → β} (h : Kindred K Eq p p') : Kindred K Eq (f <$> p) (f <$> p') := by
  rw [map_eq_pure_bind, map_eq_pure_bind]
  exact h.seq fun a => .pure rfl

theorem exhausted : Kindred K V exhausted p := fun _ _ _ => trivial

theorem atEnd : Kindred K Eq atEnd atEnd := by
  intro c c' hc
  exact ⟨by rw [K.rest hc], hc⟩

theorem takeIf (accepts : Kind → Bool) : Kindred K Eq (takeIf accepts) (takeIf accepts) := by
  intro c c' hc
  unfold Parser.takeIf
  rw [K.rest hc]
  cases hrest : c.rest with
  | nil => exact ⟨rfl, hc⟩
  | cons t rest =>
      cases h : accepts t.kind with
      | true => simpa [h] using ⟨rfl, K.take hc hrest⟩
      | false => simpa [h] using ⟨rfl, hc⟩

theorem next (kind : Kind) : Kindred K Eq (next kind) (next kind) := by
  intro c c' hc
  unfold Parser.next
  rw [K.rest hc]
  cases c.rest with
  | nil => exact ⟨rfl, hc⟩
  | cons t rest => exact ⟨rfl, hc⟩

theorem nextOrEnd (kind : Kind) : Kindred K Eq (nextOrEnd kind) (nextOrEnd kind) := by
  intro c c' hc
  unfold Parser.nextOrEnd
  rw [K.rest hc]
  cases c.rest with
  | nil => exact ⟨rfl, hc⟩
  | cons t rest => exact ⟨rfl, hc⟩

theorem unlessNext (kind : Kind) (default : α) (h : Kindred K Eq p p') :
    Kindred K Eq (unlessNext kind default p) (unlessNext kind default p') := by
  refine (next kind).seq fun found => ?_
  cases found with
  | true => exact .pure rfl
  | false => exact h

theorem failHere (cause : SyntaxCause) :
    Kindred K V (failHere cause : Parser α) (failHere cause) := by
  intro c c' hc
  exact ⟨by rw [K.peek hc], hc⟩

theorem expect (kind : Kind) (cause : SyntaxCause) :
    Kindred K Eq (expect kind cause) (expect kind cause) := by
  intro c c' hc
  unfold Parser.expect
  rw [K.rest hc]
  cases hrest : c.rest with
  | nil => exact ⟨by rw [K.eof hc], hc⟩
  | cons t rest =>
      by_cases h : t.kind = kind
      · simpa [h] using ⟨rfl, K.take hc hrest⟩
      · simpa [h] using ⟨rfl, hc⟩

theorem record (e : SyntaxError) : Kindred K Eq (record e) (record e) :=
  fun _ _ hc => ⟨rfl, K.record hc e⟩

theorem limit (tooMany : Bool) (cause : SyntaxCause) :
    Kindred K Eq (limit tooMany cause) (limit tooMany cause) := by
  intro c c' hc
  cases tooMany with
  | true =>
      refine ⟨rfl, ?_⟩
      rw [if_pos rfl, if_pos rfl, K.peek hc]
      exact K.record hc _
  | false => exact ⟨rfl, hc⟩

theorem freshId (K : ExactKinship) : Kindred K.toKinship Eq freshId freshId :=
  fun _ _ hc => ⟨(K.nextId hc).symm, K.fresh hc⟩

theorem recover (h : Kindred K Eq p p') : Kindred K Eq (recover p) (recover p') := by
  intro c c' hc
  rw [recover_eq_recovered, recover_eq_recovered]
  refine recovered_kindred ?_ rfl
  simpa only [Option.some.injEq] using h c c' hc

end Kindred

/-! ### Expressions -/

section Expressions

variable (K : ExactKinship) (m : Nat)

mutual

theorem expression_kindred : (n : Nat) → Kindred K.toKinship Eq (expression n) (expression (m + n))
  | 0 => .exhausted
  | n + 1 => by
      refine (operation_kindred n Level.all).seq fun target => ?_
      refine (Kindred.takeIf _).seq fun equals => ?_
      cases equals with
      | none => exact .pure rfl
      | some equals =>
          refine (expression_kindred n).seq fun value => ?_
          cases target with
          | «variable» id name => exact .pure rfl
          | get object name => exact .pure rfl
          | _ => exact (Kindred.record _).seq fun _ => .pure rfl

theorem operation_kindred : (n : Nat) → (levels : List Level) →
    Kindred K.toKinship Eq (operation n levels) (operation (m + n) levels)
  | 0, _ => .exhausted
  | n + 1, [] => unary_kindred n
  | n + 1, level :: tighter =>
      (operation_kindred n tighter).seq fun left => operationRest_kindred n level tighter left

theorem operationRest_kindred : (n : Nat) → (level : Level) → (tighter : List Level) →
    (left : Expr) →
    Kindred K.toKinship Eq (operationRest n level tighter left)
      (operationRest (m + n) level tighter left)
  | 0, _, _, _ => .exhausted
  | n + 1, level, tighter, left => by
      refine (Kindred.takeIf _).seq fun operator => ?_
      cases operator with
      | none => exact .pure rfl
      | some operator =>
          refine (operation_kindred n tighter).seq fun right => ?_
          exact operationRest_kindred n level tighter (level.join left operator right)

theorem unary_kindred : (n : Nat) → Kindred K.toKinship Eq (unary n) (unary (m + n))
  | 0 => .exhausted
  | n + 1 => by
      refine (Kindred.takeIf _).seq fun operator => ?_
      cases operator with
      | some operator => exact (unary_kindred n).seq fun right => .pure rfl
      | none => exact (primary_kindred n).seq fun callee => callRest_kindred n callee

theorem callRest_kindred : (n : Nat) → (callee : Expr) →
    Kindred K.toKinship Eq (callRest n callee) (callRest (m + n) callee)
  | 0, _ => .exhausted
  | n + 1, callee => by
      refine (Kindred.takeIf _).seq fun t => ?_
      cases t with
      | none => exact .pure rfl
      | some t =>
          simp only
          split
          · exact (Kindred.expect _ _).seq fun name => callRest_kindred n (.get callee name)
          · refine ((arguments_kindred n []).unlessNext _ []).seq fun arguments => ?_
            refine (Kindred.expect _ _).seq fun paren => ?_
            exact callRest_kindred n (.call callee paren arguments)

theorem arguments_kindred : (n : Nat) → (front : List Expr) →
    Kindred K.toKinship Eq (arguments n front) (arguments (m + n) front)
  | 0, _ => .exhausted
  | n + 1, front => by
      refine (Kindred.limit _ _).seq fun _ => ?_
      refine (expression_kindred n).seq fun argument => ?_
      refine (Kindred.takeIf _).seq fun comma => ?_
      cases comma with
      | some comma => exact arguments_kindred n (argument :: front)
      | none => exact .pure rfl

theorem primary_kindred : (n : Nat) → Kindred K.toKinship Eq (primary n) (primary (m + n))
  | 0 => .exhausted
  | n + 1 => by
      refine (Kindred.takeIf _).seq fun t => ?_
      cases t with
      | none => exact .failHere _
      | some t =>
          simp only
          split
          case h_5 =>
            refine (Kindred.expect _ _).seq fun _ => (Kindred.expect _ _).seq fun method => ?_
            exact (Kindred.freshId K).seq fun id => .pure rfl
          case h_6 => exact (Kindred.freshId K).seq fun id => .pure rfl
          case h_7 => exact (Kindred.freshId K).seq fun id => .pure rfl
          case h_8 =>
            refine (expression_kindred n).seq fun inner => ?_
            exact (Kindred.expect _ _).seq fun _ => .pure rfl
          all_goals exact .pure rfl

end

end Expressions

/-! ### Statements -/

section Statements

variable (K : ExactKinship) (m : Nat)

theorem expressionUnless_kindred (n : Nat) (kind : Kind) :
    Kindred K.toKinship Eq (expressionUnless n kind) (expressionUnless (m + n) kind) :=
  (expression_kindred K m n).map.unlessNext kind none

theorem initializer_kindred (n : Nat) :
    Kindred K.toKinship Eq (initializer n) (initializer (m + n)) := by
  refine (Kindred.takeIf _).seq fun equal => ?_
  cases equal with
  | none => exact .pure rfl
  | some equal => exact (expression_kindred K m n).map

theorem varDeclaration_kindred (n : Nat) :
    Kindred K.toKinship Eq (varDeclaration n) (varDeclaration (m + n)) := by
  refine (Kindred.expect _ _).seq fun name => ?_
  refine (initializer_kindred K m n).seq fun initializer => ?_
  exact (Kindred.expect _ _).seq fun _ => .pure rfl

theorem expressionStatement_kindred (n : Nat) :
    Kindred K.toKinship Eq (expressionStatement n) (expressionStatement (m + n)) := by
  refine (expression_kindred K m n).seq fun e => ?_
  exact (Kindred.expect _ _).seq fun _ => .pure rfl

theorem printStatement_kindred (n : Nat) :
    Kindred K.toKinship Eq (printStatement n) (printStatement (m + n)) := by
  refine (expression_kindred K m n).seq fun e => ?_
  exact (Kindred.expect _ _).seq fun _ => .pure rfl

theorem returnStatement_kindred (n : Nat) (keyword : Token) :
    Kindred K.toKinship Eq (returnStatement n keyword) (returnStatement (m + n) keyword) := by
  refine (expressionUnless_kindred K m n _).seq fun value => ?_
  exact (Kindred.expect _ _).seq fun _ => .pure rfl

theorem loopInitializer_kindred (n : Nat) :
    Kindred K.toKinship Eq (loopInitializer n) (loopInitializer (m + n)) := by
  refine (Kindred.takeIf _).seq fun t => ?_
  cases t with
  | none => exact (expressionStatement_kindred K m n).map
  | some t =>
      simp only
      split
      · exact .pure rfl
      · exact (varDeclaration_kindred K m n).map

theorem parameters_kindred : (n : Nat) → (front : List Token) →
    Kindred K.toKinship Eq (parameters n front) (parameters (m + n) front)
  | 0, _ => .exhausted
  | n + 1, front => by
      refine (Kindred.limit _ _).seq fun _ => ?_
      refine (Kindred.expect _ _).seq fun name => ?_
      refine (Kindred.takeIf _).seq fun comma => ?_
      cases comma with
      | some comma => exact parameters_kindred n (name :: front)
      | none => exact .pure rfl

theorem superclass_kindred : Kindred K.toKinship Eq superclass superclass := by
  refine (Kindred.takeIf _).seq fun less => ?_
  cases less with
  | none => exact .pure rfl
  | some less =>
      refine (Kindred.expect _ _).seq fun name => ?_
      exact (Kindred.freshId K).seq fun id => .pure rfl

mutual

theorem declaration_kindred : (n : Nat) →
    Kindred K.toKinship Eq (declaration n) (declaration (m + n))
  | 0 => .exhausted
  | n + 1 => by
      refine (Kindred.takeIf _).seq fun t => ?_
      cases t with
      | none => exact statement_kindred n
      | some t =>
          simp only
          split
          · exact classDeclaration_kindred n
          · exact (function_kindred n .function).map
          · exact varDeclaration_kindred K m n

theorem classDeclaration_kindred : (n : Nat) →
    Kindred K.toKinship Eq (classDeclaration n) (classDeclaration (m + n))
  | 0 => .exhausted
  | n + 1 => by
      refine (Kindred.expect _ _).seq fun name => ?_
      refine (superclass_kindred K).seq fun superclass => ?_
      refine (Kindred.expect _ _).seq fun _ => ?_
      refine (methods_kindred n []).seq fun methods => ?_
      exact (Kindred.expect _ _).seq fun _ => .pure rfl

theorem methods_kindred : (n : Nat) → (front : List FunctionDecl) →
    Kindred K.toKinship Eq (methods n front) (methods (m + n) front)
  | 0, _ => .exhausted
  | n + 1, front => by
      refine (Kindred.nextOrEnd _).seq fun ended => ?_
      cases ended with
      | true => exact .pure rfl
      | false => exact (function_kindred n .method).seq fun d => methods_kindred n (d :: front)

theorem function_kindred : (n : Nat) → (what : Callable) →
    Kindred K.toKinship Eq (function n what) (function (m + n) what)
  | 0, _ => .exhausted
  | n + 1, what => by
      refine (Kindred.expect _ _).seq fun name => ?_
      refine (Kindred.expect _ _).seq fun _ => ?_
      refine ((parameters_kindred K m n []).unlessNext _ []).seq fun params => ?_
      refine (Kindred.expect _ _).seq fun _ => ?_
      refine (Kindred.expect _ _).seq fun _ => ?_
      exact (block_kindred n []).seq fun body => .pure rfl

theorem statement_kindred : (n : Nat) → Kindred K.toKinship Eq (statement n) (statement (m + n))
  | 0 => .exhausted
  | n + 1 => by
      refine (Kindred.takeIf _).seq fun t => ?_
      cases t with
      | none => exact expressionStatement_kindred K m n
      | some t =>
          simp only
          split
          · exact forStatement_kindred n
          · exact ifStatement_kindred n
          · exact printStatement_kindred K m n
          · exact returnStatement_kindred K m n t
          · exact whileStatement_kindred n
          · exact (block_kindred n []).map

theorem forStatement_kindred : (n : Nat) →
    Kindred K.toKinship Eq (forStatement n) (forStatement (m + n))
  | 0 => .exhausted
  | n + 1 => by
      refine (Kindred.expect _ _).seq fun _ => ?_
      refine (loopInitializer_kindred K m n).seq fun init => ?_
      refine (expressionUnless_kindred K m n _).seq fun condition => ?_
      refine (Kindred.expect _ _).seq fun _ => ?_
      refine (expressionUnless_kindred K m n _).seq fun increment => ?_
      refine (Kindred.expect _ _).seq fun _ => ?_
      exact (statement_kindred n).seq fun body => .pure rfl

theorem ifStatement_kindred : (n : Nat) →
    Kindred K.toKinship Eq (ifStatement n) (ifStatement (m + n))
  | 0 => .exhausted
  | n + 1 => by
      refine (Kindred.expect _ _).seq fun _ => ?_
      refine (expression_kindred K m n).seq fun condition => ?_
      refine (Kindred.expect _ _).seq fun _ => ?_
      refine (statement_kindred n).seq fun thenBranch => ?_
      refine (Kindred.takeIf _).seq fun otherwise => ?_
      cases otherwise with
      | none => exact .pure rfl
      | some otherwise => exact (statement_kindred n).seq fun elseBranch => .pure rfl

theorem whileStatement_kindred : (n : Nat) →
    Kindred K.toKinship Eq (whileStatement n) (whileStatement (m + n))
  | 0 => .exhausted
  | n + 1 => by
      refine (Kindred.expect _ _).seq fun _ => ?_
      refine (expression_kindred K m n).seq fun condition => ?_
      refine (Kindred.expect _ _).seq fun _ => ?_
      exact (statement_kindred n).seq fun body => .pure rfl

theorem block_kindred : (n : Nat) → (front : List Stmt) →
    Kindred K.toKinship Eq (block n front) (block (m + n) front)
  | 0, _ => .exhausted
  | n + 1, front => by
      refine (Kindred.nextOrEnd _).seq fun ended => ?_
      cases ended with
      | true => exact (Kindred.expect _ _).seq fun _ => .pure rfl
      | false =>
          refine (declaration_kindred n).recover.seq fun s => ?_
          cases s with
          | some s => exact block_kindred n (s :: front)
          | none => exact block_kindred n front

end

theorem program_kindred : (n : Nat) → (front : List Stmt) →
    Kindred K.toKinship Eq (program n front) (program (m + n) front)
  | 0, _ => .exhausted
  | n + 1, front => by
      refine Kindred.atEnd.seq fun ended => ?_
      cases ended with
      | true => exact .pure rfl
      | false =>
          refine (declaration_kindred K m n).recover.seq fun s => ?_
          cases s with
          | some s => exact program_kindred n (s :: front)
          | none => exact program_kindred n front

end Statements

end Parser

end ScriptLang
