import Mathlib.Data.List.Basic
import ScriptLang.Proofs.Grammar.Recognition

/-! Two expressions with nothing between them. If the second begins with a parenthesis or a minus
sign they are read as one: the parenthesis is a call of what stands before it, and the minus sign
subtracts from it. All that can go wrong is an assignment whose left side is no target any more. -/

namespace ScriptLang

theorem Level.mem_all (level : Level) : level ∈ Level.all := by cases level <;> decide

namespace Derives

variable {i j k : ExprId} {ts us : List Token}

theorem operation_of_unary {e : Expr} (h : Derives .unary i ts e j) (levels : List Level) :
    Derives (.operation levels) i ts e j := by
  induction levels with
  | nil => exact .operand h
  | cons level levels ih => exact .tighter ih

/-! ### More operands -/

/-- An operator and one more operand go on with an operation. -/
theorem append_unary {levels : List Level} {left right : Expr} {operator : Token}
    (h : Derives (.operation levels) i ts left j) {level : Level} (hlevel : level ∈ levels)
    (haccepts : level.accepts operator.kind = true) (hright : Derives .unary j us right k) :
    ∃ e, Derives (.operation levels) i (ts ++ operator :: us) e k := by
  induction levels generalizing i ts left with
  | nil => cases hlevel
  | cons first levels ih =>
      rcases List.mem_cons.mp hlevel with rfl | hlevel
      · exact ⟨_, .join h (hright.operation_of_unary levels) (Level.joins_iff.mpr ⟨haccepts, rfl⟩)⟩
      · -- The operator binds tighter than the first level, so the last operand takes it.
        cases h with
        | tighter h =>
            obtain ⟨e, he⟩ := ih h hlevel
            exact ⟨e, .tighter he⟩
        | join hleft hlast hjoins =>
            obtain ⟨e, he⟩ := ih hlast hlevel
            rw [List.append_assoc, List.cons_append]
            exact ⟨_, .join hleft he (Level.joins_iff.mpr ⟨(Level.joins_iff.mp hjoins).1, rfl⟩)⟩

/-- An operator and one more operation go on with an operation. -/
theorem append_operation {x : Symbol} {a : x.Tree} (h : Derives x j us a k) :
    ∀ {levels}, x = .operation levels → ∀ {i ts left} {level : Level} {operator : Token},
      Derives (.operation Level.all) i ts left j → level.accepts operator.kind = true →
      ∃ e, Derives (.operation Level.all) i (ts ++ operator :: us) e k := by
  induction h with
  | operand hunary =>
      rintro levels - i ts left level operator hleft haccepts
      exact hleft.append_unary (Level.mem_all level) haccepts hunary
  | tighter _ ih =>
      rintro levels - i ts left level operator hleft haccepts
      exact ih rfl hleft haccepts
  | join _ _ hjoins ih ih' =>
      rintro levels - i ts left level operator hleft haccepts
      obtain ⟨e, he⟩ := ih rfl hleft haccepts
      obtain ⟨e', he'⟩ := ih' rfl he (Level.joins_iff.mp hjoins).1
      rw [List.append_assoc, List.cons_append] at he'
      exact ⟨e', he'⟩
  | _ =>
      intro levels hx
      cases hx

/-! ### Calls -/

/-- A call goes on over one that begins with a parenthesis: what stood in the parentheses is an
argument. -/
theorem append_call {x : Symbol} {a : x.Tree} (h : Derives x j us a k) :
    x = .call → (∀ t ∈ us.head?, t.kind = .leftParen) → ∀ {i ts callee},
      Derives .call i ts callee j → ∃ e, Derives .call i (ts ++ us) e k := by
  induction h with
  | callee hprimary =>
      rintro - hparen i ts callee hcallee
      cases hprimary with
      | grouping hlparen hinner hrparen =>
          rw [← List.append_assoc]
          exact ⟨_, .callWith hcallee hlparen (.argument hinner) (by simp) hrparen⟩
      | _ => simp_all
  | callBare hcall hlparen hrparen ih =>
      rintro - hparen i ts callee hcallee
      rw [List.head?_append_of_ne_nil _ (hcall.opens.2 rfl)] at hparen
      obtain ⟨e, he⟩ := ih rfl hparen hcallee
      rw [← List.append_assoc]
      exact ⟨_, .callBare he hlparen hrparen⟩
  | callWith hcall hlparen hargs hmax hrparen ih =>
      rintro - hparen i ts callee hcallee
      rw [List.append_assoc, List.head?_append_of_ne_nil _ (hcall.opens.2 rfl)] at hparen
      obtain ⟨e, he⟩ := ih rfl hparen hcallee
      rw [← List.append_assoc, ← List.append_assoc]
      exact ⟨_, .callWith he hlparen hargs hmax hrparen⟩
  | get hcall hdot hname ih =>
      rintro - hparen i ts callee hcallee
      rw [List.head?_append_of_ne_nil _ (hcall.opens.2 rfl)] at hparen
      obtain ⟨e, he⟩ := ih rfl hparen hcallee
      rw [← List.append_assoc]
      exact ⟨_, .get he hdot hname⟩
  | _ =>
      intro hx
      cases hx

/-- The last operand of a unary operator takes the call. -/
theorem unary_append_call {x : Symbol} {a : x.Tree} (h : Derives x i ts a j) :
    x = .unary → ∀ {us e k}, Derives .call j us e k → (∀ t ∈ us.head?, t.kind = .leftParen) →
      ∃ e', Derives .unary i (ts ++ us) e' k := by
  induction h with
  | unary hoperator _ ih =>
      rintro - us e k hcall hparen
      obtain ⟨e', he'⟩ := ih rfl hcall hparen
      exact ⟨_, .unary hoperator he'⟩
  | call hcallee =>
      rintro - us e k hcall hparen
      obtain ⟨e', he'⟩ := hcall.append_call rfl hparen hcallee
      exact ⟨e', .call he'⟩
  | _ =>
      intro hx
      cases hx

/-- So does the last operand of an operation. -/
theorem operation_append_call {levels : List Level} {left e : Expr}
    (h : Derives (.operation levels) i ts left j) (hcall : Derives .call j us e k)
    (hparen : ∀ t ∈ us.head?, t.kind = .leftParen) :
    ∃ e', Derives (.operation levels) i (ts ++ us) e' k := by
  induction levels generalizing i ts left with
  | nil =>
      cases h with
      | operand h =>
          obtain ⟨e', he'⟩ := h.unary_append_call rfl hcall hparen
          exact ⟨e', .operand he'⟩
  | cons level levels ih =>
      cases h with
      | tighter h =>
          obtain ⟨e', he'⟩ := ih h
          exact ⟨e', .tighter he'⟩
      | join hleft hlast hjoins =>
          obtain ⟨e', he'⟩ := ih hlast
          rw [List.append_assoc, List.cons_append]
          exact ⟨_, .join hleft he' (Level.joins_iff.mpr ⟨(Level.joins_iff.mp hjoins).1, rfl⟩)⟩

/-! ### Operations -/

/-- A call that goes on with what stands before it begins with a parenthesis. -/
theorem call_leftParen {e : Expr} (h : Derives .call i ts e j)
    (hgoes : ∀ t ∈ ts.head?, t.kind.extendsExpression = true) :
    ∀ t ∈ ts.head?, t.kind = .leftParen := by
  intro t ht
  have hprimary : t.kind.isPrimary = true := h.opens.1 t ht
  have hextends := hgoes t ht
  generalize t.kind = kind at hprimary hextends
  cases kind <;> first
    | rfl
    | exact absurd hprimary Bool.false_ne_true
    | exact absurd hextends Bool.false_ne_true

/-- An operation goes on over one whose first token goes on with it. -/
theorem operation_append {x : Symbol} {a : x.Tree} (h : Derives x j us a k) :
    ∀ {levels}, x = .operation levels →
      (∀ t ∈ us.head?, t.kind.extendsExpression = true) → ∀ {i ts left},
      Derives (.operation Level.all) i ts left j →
      ∃ e, Derives (.operation Level.all) i (ts ++ us) e k := by
  induction h with
  | operand hoperand =>
      rintro levels - hgoes i ts left hleft
      cases hoperand with
      | unary hkind hoperand =>
          rcases hkind with hbang | hminus
          · have hextends := hgoes _ rfl
            rw [hbang] at hextends
            cases hextends
          · exact hleft.append_unary (Level.mem_all .term) (by rw [hminus]; rfl) hoperand
      | call hcall => exact hleft.operation_append_call hcall (hcall.call_leftParen hgoes)
  | tighter _ ih =>
      rintro levels - hgoes i ts left hleft
      exact ih rfl hgoes hleft
  | join hfirst hlast hjoins ih =>
      rintro levels - hgoes i ts left hleft
      rw [List.head?_append_of_ne_nil _ (hfirst.opens.2 rfl)] at hgoes
      obtain ⟨e, he⟩ := ih rfl hgoes hleft
      rw [← List.append_assoc]
      exact hlast.append_operation rfl he (Level.joins_iff.mp hjoins).1
  | _ =>
      intro levels hx
      cases hx

theorem operation_of_call {e : Expr} (h : Derives .call i ts e j) :
    Derives (.operation Level.all) i ts e j :=
  operation_of_unary (.call h) Level.all

end Derives

/-! ### Assignments -/

/-- What an assignment of a value to an expression is: the expression itself if it is no target. -/
def Expr.assigned (target value : Expr) : Expr :=
  match target with
  | .variable id name => .assign id name value
  | .get object name => .set object name value
  | _ => target

namespace Parser

/-- The tokens `ts` are read as an expression, with the ids from `i` up to `j`, and `es` noted. -/
def ExpressionReads (i : ExprId) (ts : List Token) (j : ExprId) (es : List SyntaxError) : Prop :=
  ∃ e, ∀ (n : Nat) (rest : List Token) (eof : Token) (errors : List SyntaxError),
    16 * ts.length + 10 ≤ n → Stops Kind.extendsExpression rest →
    expression n ⟨ts ++ rest, eof, i, errors⟩ = .ok e ⟨rest, eof, j, es ++ errors⟩

variable {i j k : ExprId} {ts us : List Token}

theorem ExpressionReads.of_derives {e : Expr} (h : Derives .expression i ts e j) :
    ExpressionReads i ts j [] :=
  ⟨e, fun n rest eof errors => completes h n rest eof errors⟩

/-- An equals sign notes an error if what stands before it is no target. -/
theorem ExpressionReads.assignment {target : Expr} {equal : Token} {es : List SyntaxError}
    (h : Derives (.operation Level.all) i ts target j) (hequal : equal.kind = .equal)
    (hvalue : ExpressionReads j us k es) :
    ExpressionReads i (ts ++ equal :: us) k
      (if target.isTarget then es else ⟨equal, .invalidTarget⟩ :: es) := by
  obtain ⟨value, hvalue⟩ := hvalue
  refine ⟨target.assigned value, fun n rest eof errors hn hstop => ?_⟩
  obtain ⟨n, rfl⟩ : ∃ n', n = n' + 1 := ⟨n - 1, by omega⟩
  simp only [List.length_append, List.length_cons] at hn
  have htarget := (completes h).operation_eq List.suffix_rfl n (equal :: (us ++ rest)) eof errors
    (by simp only [Level.all, List.length_cons, List.length_nil]; omega)
    (.cons (by rw [hequal]; decide) _)
  rw [List.append_assoc, List.cons_append, expression, bind_of_ok htarget]
  refine (bind_of_ok (takeIf_of_accepts (by simp [hequal]))).trans ?_
  refine (bind_of_ok (hvalue n rest eof errors (by omega) hstop)).trans ?_
  cases target <;> rfl

/-- An expression and one after it whose first token goes on with it are read as one. At most one
error is noted: for an assignment of which the left side is no target. -/
theorem expressionReads_append {x : Symbol} {a : x.Tree} (h : Derives x i ts a j) :
    x = .expression → ∀ {us e k}, Derives .expression j us e k →
      (∀ t ∈ us.head?, t.kind.extendsExpression = true) →
      ∃ es, es.length ≤ 1 ∧ ExpressionReads i (ts ++ us) k es := by
  induction h with
  | assign hname hequal _ ih =>
      rintro - us e k hlast hgoes
      obtain ⟨es, hlength, hreads⟩ := ih rfl hlast hgoes
      exact ⟨es, hlength, .assignment (.operation_of_call (.callee (.reference hname))) hequal
        hreads⟩
  | set hobject hdot hname hequal _ _ ih =>
      rintro - us e k hlast hgoes
      obtain ⟨es, hlength, hreads⟩ := ih rfl hlast hgoes
      refine ⟨es, hlength, ?_⟩
      have hset := ExpressionReads.assignment (.operation_of_call (.get hobject hdot hname)) hequal
        hreads
      simpa [Expr.isTarget] using hset
  | operation hfirst =>
      rintro - us e k hlast hgoes
      cases hlast with
      | assign hname _ _ =>
          have hextends := hgoes _ rfl
          rw [hname] at hextends
          cases hextends
      | @set _ vs object _ dot name equal ws _ _ hobject hdot hname hequal hvalue =>
          have hget := Derives.get hobject hdot hname
          rw [List.head?_append_of_ne_nil _ (hobject.opens.2 rfl)] at hgoes
          obtain ⟨target, htarget⟩ := hfirst.operation_append_call hget (by
            rw [List.head?_append_of_ne_nil _ (hobject.opens.2 rfl)]
            exact hobject.call_leftParen hgoes)
          have hset := ExpressionReads.assignment htarget hequal (.of_derives hvalue)
          refine ⟨_, ?_, by simpa using hset⟩
          split <;> simp
      | operation hlast =>
          obtain ⟨e', he'⟩ := hlast.operation_append rfl hgoes hfirst
          exact ⟨[], by decide, .of_derives (.operation he')⟩
  | _ =>
      intro hx
      cases hx

end Parser

end ScriptLang
