import ScriptLang.Proofs.Numbering.Trees
import ScriptLang.Stmt.Parser

/-! Reading tokens does not depend on where the ids begin: the same is read and the same errors are
noted, with the ids further up. -/

namespace ScriptLang

/-- The cursor with its next free id further up. -/
def Cursor.raise (n : Nat) (c : Cursor) : Cursor := { c with nextId := c.nextId + n }

/-- The reply with its cursor's next free id further up, and another value. -/
def Reply.raise {α β : Type} (n : Nat) (f : α → β) : Reply α → Reply β
  | .ok a c => .ok (f a) (c.raise n)
  | .fail e c => .fail e (c.raise n)
  | .exhausted => .exhausted

namespace Parser

/-- Both parsers do the same, the second with ids further up; `f` is what becomes of the value. -/
def Raises {α β : Type} (n : Nat) (f : α → β) (p : Parser α) (p' : Parser β) : Prop :=
  ∀ c, p' (c.raise n) = (p c).raise n f

namespace Raises

variable {α β γ δ : Type} {n : Nat}

theorem bind {f : α → β} {g : γ → δ} {p : Parser α} {p' : Parser β} {q : α → Parser γ}
    {q' : β → Parser δ} (h : Raises n f p p') (hq : ∀ a, Raises n g (q a) (q' (f a))) :
    Raises n g (p >>= q) (p' >>= q') := by
  intro c
  rw [bind_apply, bind_apply, h c]
  cases p c with
  | ok a c => exact hq a c
  | fail e c => rfl
  | exhausted => rfl

theorem pure {f : α → β} (a : α) : Raises n f (pure a) (pure (f a)) := fun _ => rfl

theorem map {f : α → β} {g : γ → δ} {k : α → γ} {k' : β → δ} {p : Parser α} {p' : Parser β}
    (h : Raises n f p p') (hk : ∀ a, k' (f a) = g (k a)) : Raises n g (k <$> p) (k' <$> p') := by
  rw [map_eq_pure_bind, map_eq_pure_bind]
  refine h.bind fun a => ?_
  rw [hk]
  exact .pure (k a)

theorem exhausted {f : α → β} : Raises n f exhausted exhausted := fun _ => rfl

theorem atEnd : Raises n id atEnd atEnd := fun _ => rfl

theorem takeIf (accepts : Kind → Bool) : Raises n id (takeIf accepts) (takeIf accepts) := by
  intro c
  simp only [Parser.takeIf, Cursor.raise]
  split
  · rfl
  · split <;> rfl

theorem next (kind : Kind) : Raises n id (next kind) (next kind) := by
  intro c
  simp only [Parser.next, Cursor.raise]
  split <;> rfl

theorem nextOrEnd (kind : Kind) : Raises n id (nextOrEnd kind) (nextOrEnd kind) := by
  intro c
  simp only [Parser.nextOrEnd, Cursor.raise]
  split <;> rfl

theorem unlessNext {f : α → β} (kind : Kind) (default : α) {p : Parser α} {p' : Parser β}
    (h : Raises n f p p') :
    Raises n f (unlessNext kind default p) (unlessNext kind (f default) p') := by
  refine (next kind).bind fun found => ?_
  cases found with
  | true => exact .pure default
  | false => exact h

theorem failHere {f : α → β} (cause : SyntaxCause) :
    Raises n f (failHere cause) (failHere cause) := fun _ => rfl

theorem expect (kind : Kind) (cause : SyntaxCause) :
    Raises n id (expect kind cause) (expect kind cause) := by
  intro c
  simp only [Parser.expect, Cursor.raise]
  split
  · rfl
  · split <;> rfl

theorem record (e : SyntaxError) : Raises n id (record e) (record e) := fun _ => rfl

theorem limit (tooMany : Bool) (cause : SyntaxCause) :
    Raises n id (limit tooMany cause) (limit tooMany cause) := by
  intro c
  cases tooMany <;> rfl

theorem freshId : Raises n (· + n) freshId freshId := by
  intro c
  simp only [Parser.freshId, Cursor.raise, Reply.raise, Nat.add_right_comm]

theorem recover {f : α → β} {p : Parser α} {p' : Parser β} (h : Raises n f p p') :
    Raises n (Option.map f) (recover p) (recover p') := by
  intro c
  simp only [Parser.recover, h c]
  cases p c with
  | ok a c => rfl
  | fail e c =>
      simp only [Reply.raise, Cursor.synchronize, Cursor.record, Cursor.raise]
      split <;> rfl
  | exhausted => rfl

end Raises

/-! ### Expressions -/

section Expressions

variable (n : Nat)

theorem join_raise (level : Level) (left right : Expr) (t : Token) :
    level.join (left.raise n) t (right.raise n) = (level.join left t right).raise n := by
  cases level <;> rfl

mutual

theorem expression_raises : (k : Nat) → Raises n (Expr.raise n) (expression k) (expression k)
  | 0 => .exhausted
  | k + 1 => by
      refine (operation_raises k Level.all).bind fun target => ?_
      refine (Raises.takeIf _).bind fun equals => ?_
      cases equals with
      | none => exact .pure target
      | some equals =>
          refine (expression_raises k).bind fun value => ?_
          cases target with
          | «variable» id name => exact .pure (Expr.assign id name value)
          | get object name => exact .pure (Expr.set object name value)
          | _ => exact (Raises.record _).bind fun _ => .pure _

theorem operation_raises : (k : Nat) → (levels : List Level) →
    Raises n (Expr.raise n) (operation k levels) (operation k levels)
  | 0, _ => .exhausted
  | k + 1, [] => unary_raises k
  | k + 1, level :: tighter =>
      (operation_raises k tighter).bind fun left => operationRest_raises k level tighter left

theorem operationRest_raises : (k : Nat) → (level : Level) → (tighter : List Level) →
    (left : Expr) → Raises n (Expr.raise n) (operationRest k level tighter left)
      (operationRest k level tighter (left.raise n))
  | 0, _, _, _ => .exhausted
  | k + 1, level, tighter, left => by
      refine (Raises.takeIf _).bind fun operator => ?_
      cases operator with
      | none => exact .pure left
      | some operator =>
          refine (operation_raises k tighter).bind fun right => ?_
          simp only [join_raise]
          exact operationRest_raises k level tighter (level.join left operator right)

theorem unary_raises : (k : Nat) → Raises n (Expr.raise n) (unary k) (unary k)
  | 0 => .exhausted
  | k + 1 => by
      refine (Raises.takeIf _).bind fun operator => ?_
      cases operator with
      | some operator => exact (unary_raises k).bind fun right => .pure (Expr.unary operator right)
      | none => exact (primary_raises k).bind fun callee => callRest_raises k callee

theorem callRest_raises : (k : Nat) → (callee : Expr) →
    Raises n (Expr.raise n) (callRest k callee) (callRest k (callee.raise n))
  | 0, _ => .exhausted
  | k + 1, callee => by
      refine (Raises.takeIf _).bind fun t => ?_
      cases t with
      | none => exact .pure callee
      | some t =>
          simp only [id]
          split
          · exact (Raises.expect _ _).bind fun name => callRest_raises k (.get callee name)
          · refine ((arguments_raises k []).unlessNext _ []).bind fun arguments => ?_
            refine (Raises.expect _ _).bind fun paren => ?_
            exact callRest_raises k (.call callee paren arguments)

theorem arguments_raises : (k : Nat) → (front : List Expr) →
    Raises n (Expr.raiseEach n) (arguments k front) (arguments k (Expr.raiseEach n front))
  | 0, _ => .exhausted
  | k + 1, front => by
      have hlength : (Expr.raiseEach n front).length = front.length := by
        simp only [Expr.renumberEach_eq, List.length_map]
      rw [arguments, arguments, hlength]
      refine (Raises.limit _ _).bind fun _ => ?_
      refine (expression_raises k).bind fun argument => ?_
      refine (Raises.takeIf _).bind fun comma => ?_
      cases comma with
      | some comma => exact arguments_raises k (argument :: front)
      | none =>
          have hreverse : (argument.raise n :: Expr.raiseEach n front).reverse =
              Expr.raiseEach n (argument :: front).reverse := by
            simp only [Expr.renumberEach_eq, List.map_reverse, List.map_cons]
          simp only [id, hreverse]
          exact .pure _

theorem primary_raises : (k : Nat) → Raises n (Expr.raise n) (primary k) (primary k)
  | 0 => .exhausted
  | k + 1 => by
      refine (Raises.takeIf _).bind fun t => ?_
      cases t with
      | none => exact .failHere _
      | some t =>
          simp only [id]
          split
          case h_5 =>
            refine (Raises.expect _ _).bind fun _ => (Raises.expect _ _).bind fun method => ?_
            exact Raises.freshId.bind fun id => .pure (Expr.super id t method)
          case h_6 => exact Raises.freshId.bind fun id => .pure (Expr.this id t)
          case h_7 => exact Raises.freshId.bind fun id => .pure (Expr.variable id t)
          case h_8 =>
            refine (expression_raises k).bind fun inner => ?_
            exact (Raises.expect _ _).bind fun _ => .pure (Expr.grouping inner)
          all_goals exact .pure (Expr.literal _)

end

end Expressions

/-! ### Statements -/

section Statements

variable (n : Nat)

theorem forLoop_raise (init : Option Stmt) (condition increment : Option Expr) (body : Stmt) :
    Stmt.forLoop (init.map (Stmt.raise n)) (condition.map (Expr.raise n))
      (increment.map (Expr.raise n)) (body.raise n) =
      (Stmt.forLoop init condition increment body).raise n := by
  cases init <;> cases condition <;> cases increment <;> rfl

theorem expressionUnless_raises (k : Nat) (kind : Kind) :
    Raises n (Option.map (Expr.raise n)) (expressionUnless k kind) (expressionUnless k kind) := by
  apply Raises.unlessNext kind none
  exact (expression_raises n k).map fun _ => rfl

theorem initializer_raises (k : Nat) :
    Raises n (Option.map (Expr.raise n)) (initializer k) (initializer k) := by
  refine (Raises.takeIf _).bind fun equal => ?_
  cases equal with
  | none => exact .pure none
  | some equal => exact (expression_raises n k).map fun _ => rfl

theorem varDeclaration_raises (k : Nat) :
    Raises n (Stmt.raise n) (varDeclaration k) (varDeclaration k) := by
  refine (Raises.expect _ _).bind fun name => ?_
  refine (initializer_raises n k).bind fun initializer => ?_
  exact (Raises.expect _ _).bind fun _ => .pure (Stmt.var name initializer)

theorem expressionStatement_raises (k : Nat) :
    Raises n (Stmt.raise n) (expressionStatement k) (expressionStatement k) := by
  refine (expression_raises n k).bind fun e => ?_
  exact (Raises.expect _ _).bind fun _ => .pure (Stmt.expression e)

theorem printStatement_raises (k : Nat) :
    Raises n (Stmt.raise n) (printStatement k) (printStatement k) := by
  refine (expression_raises n k).bind fun e => ?_
  exact (Raises.expect _ _).bind fun _ => .pure (Stmt.print e)

theorem returnStatement_raises (k : Nat) (keyword : Token) :
    Raises n (Stmt.raise n) (returnStatement k keyword) (returnStatement k keyword) := by
  refine (expressionUnless_raises n k _).bind fun value => ?_
  exact (Raises.expect _ _).bind fun _ => .pure (Stmt.ret keyword value)

theorem loopInitializer_raises (k : Nat) :
    Raises n (Option.map (Stmt.raise n)) (loopInitializer k) (loopInitializer k) := by
  refine (Raises.takeIf _).bind fun t => ?_
  cases t with
  | none => exact (expressionStatement_raises n k).map fun _ => rfl
  | some t =>
      simp only [id]
      split
      · exact .pure none
      · exact (varDeclaration_raises n k).map fun _ => rfl

theorem parameters_raises : (k : Nat) → (front : List Token) →
    Raises n id (parameters k front) (parameters k front)
  | 0, _ => .exhausted
  | k + 1, front => by
      refine (Raises.limit _ _).bind fun _ => ?_
      refine (Raises.expect _ _).bind fun name => ?_
      refine (Raises.takeIf _).bind fun comma => ?_
      cases comma with
      | some comma => exact parameters_raises k (name :: front)
      | none => exact .pure (name :: front).reverse

theorem superclass_raises : Raises n (Option.map (Expr.raise n)) superclass superclass := by
  refine (Raises.takeIf _).bind fun less => ?_
  cases less with
  | none => exact .pure none
  | some less =>
      refine (Raises.expect _ _).bind fun name => ?_
      exact Raises.freshId.bind fun id => .pure (some (Expr.variable id name))

mutual

theorem declaration_raises : (k : Nat) →
    Raises n (Stmt.raise n) (declaration k) (declaration k)
  | 0 => .exhausted
  | k + 1 => by
      refine (Raises.takeIf _).bind fun t => ?_
      cases t with
      | none => exact statement_raises k
      | some t =>
          simp only [id]
          split
          · exact classDeclaration_raises k
          · exact (function_raises k .function).map fun _ => rfl
          · exact varDeclaration_raises n k

theorem classDeclaration_raises : (k : Nat) →
    Raises n (Stmt.raise n) (classDeclaration k) (classDeclaration k)
  | 0 => .exhausted
  | k + 1 => by
      refine (Raises.expect _ _).bind fun name => ?_
      refine (superclass_raises n).bind fun superclass => ?_
      refine (Raises.expect _ _).bind fun _ => ?_
      refine (methods_raises k []).bind fun methods => ?_
      exact (Raises.expect _ _).bind fun _ => .pure (Stmt.classDecl name superclass methods)

theorem methods_raises : (k : Nat) → (front : List FunctionDecl) →
    Raises n (FunctionDecl.raiseEach n) (methods k front)
      (methods k (FunctionDecl.raiseEach n front))
  | 0, _ => .exhausted
  | k + 1, front => by
      refine (Raises.nextOrEnd _).bind fun ended => ?_
      cases ended with
      | true =>
          have hreverse : (FunctionDecl.raiseEach n front).reverse =
              FunctionDecl.raiseEach n front.reverse := by
            simp only [FunctionDecl.renumberEach_eq, List.map_reverse]
          simp only [id, if_true, hreverse]
          exact .pure _
      | false => exact (function_raises k .method).bind fun d => methods_raises k (d :: front)

theorem function_raises : (k : Nat) → (what : Callable) →
    Raises n (FunctionDecl.raise n) (function k what) (function k what)
  | 0, _ => .exhausted
  | k + 1, what => by
      refine (Raises.expect _ _).bind fun name => ?_
      refine (Raises.expect _ _).bind fun _ => ?_
      refine ((parameters_raises n k []).unlessNext _ []).bind fun params => ?_
      refine (Raises.expect _ _).bind fun _ => ?_
      refine (Raises.expect _ _).bind fun _ => ?_
      exact (block_raises k []).bind fun body => .pure (FunctionDecl.mk name params body)

theorem statement_raises : (k : Nat) → Raises n (Stmt.raise n) (statement k) (statement k)
  | 0 => .exhausted
  | k + 1 => by
      refine (Raises.takeIf _).bind fun t => ?_
      cases t with
      | none => exact expressionStatement_raises n k
      | some t =>
          simp only [id]
          split
          · exact forStatement_raises k
          · exact ifStatement_raises k
          · exact printStatement_raises n k
          · exact returnStatement_raises n k t
          · exact whileStatement_raises k
          · exact (block_raises k []).map fun _ => rfl

theorem forStatement_raises : (k : Nat) →
    Raises n (Stmt.raise n) (forStatement k) (forStatement k)
  | 0 => .exhausted
  | k + 1 => by
      refine (Raises.expect _ _).bind fun _ => ?_
      refine (loopInitializer_raises n k).bind fun init => ?_
      refine (expressionUnless_raises n k _).bind fun condition => ?_
      refine (Raises.expect _ _).bind fun _ => ?_
      refine (expressionUnless_raises n k _).bind fun increment => ?_
      refine (Raises.expect _ _).bind fun _ => ?_
      refine (statement_raises k).bind fun body => ?_
      rw [forLoop_raise]
      exact .pure _

theorem ifStatement_raises : (k : Nat) → Raises n (Stmt.raise n) (ifStatement k) (ifStatement k)
  | 0 => .exhausted
  | k + 1 => by
      refine (Raises.expect _ _).bind fun _ => ?_
      refine (expression_raises n k).bind fun condition => ?_
      refine (Raises.expect _ _).bind fun _ => ?_
      refine (statement_raises k).bind fun thenBranch => ?_
      refine (Raises.takeIf _).bind fun otherwise => ?_
      cases otherwise with
      | none => exact .pure (Stmt.ifThen condition thenBranch)
      | some otherwise =>
          refine (statement_raises k).bind fun elseBranch => ?_
          exact .pure (Stmt.ifElse condition thenBranch elseBranch)

theorem whileStatement_raises : (k : Nat) →
    Raises n (Stmt.raise n) (whileStatement k) (whileStatement k)
  | 0 => .exhausted
  | k + 1 => by
      refine (Raises.expect _ _).bind fun _ => ?_
      refine (expression_raises n k).bind fun condition => ?_
      refine (Raises.expect _ _).bind fun _ => ?_
      exact (statement_raises k).bind fun body => .pure (Stmt.loop condition body)

theorem block_raises : (k : Nat) → (front : List Stmt) →
    Raises n (Stmt.raiseEach n) (block k front) (block k (Stmt.raiseEach n front))
  | 0, _ => .exhausted
  | k + 1, front => by
      refine (Raises.nextOrEnd _).bind fun ended => ?_
      cases ended with
      | true =>
          refine (Raises.expect _ _).bind fun _ => ?_
          rw [Stmt.renumberEach_reverse]
          exact .pure _
      | false =>
          refine (declaration_raises k).recover.bind fun s => ?_
          cases s with
          | some s => exact block_raises k (s :: front)
          | none => exact block_raises k front

end

theorem program_raises : (k : Nat) → (front : List Stmt) →
    Raises n (Stmt.raiseEach n) (program k front) (program k (Stmt.raiseEach n front))
  | 0, _ => .exhausted
  | k + 1, front => by
      refine Raises.atEnd.bind fun ended => ?_
      cases ended with
      | true =>
          simp only [id, if_true, Stmt.renumberEach_reverse]
          exact .pure _
      | false =>
          refine (declaration_raises n k).recover.bind fun s => ?_
          cases s with
          | some s => exact program_raises k (s :: front)
          | none => exact program_raises k front

end Statements

end Parser

/-! ### Programs -/

/-- What was read, with all ids further up. -/
def Parsed.raise (n : Nat) (p : Parsed) : Parsed :=
  ⟨p.program.map (Stmt.raiseEach n), p.nextId + n⟩

/-- Whatever the ids begin with, the same is read as from the first id on. -/
theorem Parsed.ofTokens_eq_raise (tokens : List Token) (first : ExprId) :
    ofTokens tokens first = (ofTokens tokens 0).raise first := by
  let rest := tokens.takeWhile (!·.isEof)
  let eof := (tokens.find? Token.isEof).getD ⟨.eof, "", 0⟩
  have hread : Parser.program (budget rest.length) [] ⟨rest, eof, first, []⟩ =
      (Parser.program (budget rest.length) [] ⟨rest, eof, 0, []⟩).raise first
        (Stmt.raiseEach first) := by
    have hraises := Parser.program_raises first (budget rest.length) [] ⟨rest, eof, 0, []⟩
    simpa only [Cursor.raise, Nat.zero_add, Stmt.renumberEach] using hraises
  simp only [ofTokens]
  rw [hread]
  cases Parser.program (budget rest.length) [] ⟨rest, eof, 0, []⟩ with
  | ok program c =>
      simp only [Reply.raise, Cursor.raise, Parsed.raise]
      split <;> rfl
  | fail e c => rfl
  | exhausted => simp [Reply.raise, Parsed.raise, Except.map]

end ScriptLang
