import ScriptLang.Proofs.Grammar.Replies

/-! Reading expressions is sound: what is read without an error is a phrase of the grammar that
stands for the tree that was built. Along with it goes that a budget of sixteen for each token,
and a few more, is never used up. -/

namespace ScriptLang

/-- Whether every phrase of the symbol has a token. -/
def Symbol.nonempty : Symbol → Bool
  | .declarations | .functions | .optional => false
  | _ => true

/-- From `c` to `d` tokens are taken that, unless an error was noted, are a phrase for `a`. -/
def Reads (x : Symbol) (c : Cursor) (a : x.Tree) (d : Cursor) : Prop :=
  ∃ ts, c.Took ts d ∧ (x.nonempty = true → ts ≠ []) ∧
    (d.errors = [] → Derives x c.nextId ts a d.nextId)

theorem Reads.length {x : Symbol} {c d : Cursor} {a : x.Tree} (h : Reads x c a d)
    (hx : x.nonempty = true) : d.rest.length < c.rest.length := by
  obtain ⟨ts, ht, hne, -⟩ := h
  have := ht.length
  have := List.length_pos_iff.mpr (hne hx)
  omega

/-! ### Targets of assignments -/

/-- An expression that can stand on the left of an equals sign. -/
def Expr.isTarget : Expr → Bool
  | .variable _ _ => true
  | .get _ _ => true
  | _ => false

theorem Level.Joins.isTarget {level : Level} {left right e : Expr} {operator : Token}
    (h : level.Joins left operator right e) : e.isTarget = false := by
  cases h <;> rfl

/-- A target is a call, whatever the level it is read at. -/
theorem Derives.call_of_isTarget {levels : List Level} {i j : ExprId} {ts : List Token} {e : Expr}
    (h : Derives (.operation levels) i ts e j) (he : e.isTarget = true) :
    Derives .call i ts e j := by
  induction levels generalizing i j ts e with
  | nil =>
      cases h with
      | operand h =>
          cases h with
          | unary => simp [Expr.isTarget] at he
          | call h => exact h
  | cons level levels ih =>
      cases h with
      | tighter h => exact ih h he
      | join _ _ h => simp [h.isTarget] at he

theorem Derives.assign_of_variable {levels : List Level} {i j k id : ExprId} {ts us : List Token}
    {name equal : Token} {e : Expr} (h : Derives (.operation levels) i ts (.variable id name) j)
    (hequal : equal.kind = .equal) (he : Derives .expression j us e k) :
    Derives .expression i (ts ++ equal :: us) (.assign id name e) k := by
  cases h.call_of_isTarget rfl with
  | callee h =>
      cases h with
      | reference hname => exact .assign hname hequal he

theorem Derives.set_of_get {levels : List Level} {i j k : ExprId} {ts us : List Token}
    {object : Expr} {name equal : Token} {e : Expr}
    (h : Derives (.operation levels) i ts (.get object name) j)
    (hequal : equal.kind = .equal) (he : Derives .expression j us e k) :
    Derives .expression i (ts ++ equal :: us) (.set object name e) k := by
  cases h.call_of_isTarget rfl with
  | callee h => cases h
  | get h hdot hname =>
      rw [List.append_assoc]
      exact .set h hdot hname hequal he

/-! ### The rules -/

namespace Parser

/-- What reading expressions with the budget `n` does. The functions that go on after a phrase
have read that phrase from `c` on. -/
structure ReadsExpressions (n : Nat) : Prop where
  expression : ∀ c, (expression n c).Satisfies (Reads .expression c) c.Leads
    (n < 16 * c.rest.length + 10)
  operation : ∀ levels c, (operation n levels c).Satisfies (Reads (.operation levels) c) c.Leads
    (n < 16 * c.rest.length + 3 + levels.length)
  operationRest : ∀ level levels left c d, Reads (.operation (level :: levels)) c left d →
    (operationRest n level levels left d).Satisfies (Reads (.operation (level :: levels)) c)
      c.Leads (n < 16 * d.rest.length + 1 + levels.length)
  unary : ∀ c, (unary n c).Satisfies (Reads .unary c) c.Leads (n < 16 * c.rest.length + 2)
  callRest : ∀ callee c d, Reads .call c callee d →
    (callRest n callee d).Satisfies (Reads .call c) c.Leads (n < 16 * d.rest.length + 1)
  arguments : ∀ front c, (arguments n front c).Satisfies
    (fun es d => ∃ rest, es = front.reverse ++ rest ∧ Reads .arguments c rest d ∧
      (d.errors = [] → front.length + rest.length ≤ maxArity))
    c.Leads (n < 16 * c.rest.length + 11)
  primary : ∀ c, (primary n c).Satisfies (Reads .primary c) c.Leads (n < 16 * c.rest.length + 1)

namespace ReadsExpressions

variable {n : Nat}

theorem expression_succ (h : ReadsExpressions n) (c : Cursor) :
    (Parser.expression (n + 1) c).Satisfies (Reads .expression c) c.Leads
      (n + 1 < 16 * c.rest.length + 10) := by
  unfold Parser.expression
  refine satisfies_bind ((h.operation Level.all c).mono (fun _ _ => id) (fun _ => id) ?_) ?_
  · simp only [Level.all, List.length_cons, List.length_nil]
    omega
  intro target d hd
  obtain ⟨ts, ht, hne, hop⟩ := hd
  refine satisfies_take? ?_ ?_
  · intro equals rest hrest hequal
    have hlength := ht.length
    have htake := ht.trans (.one hrest)
    simp only [hrest, List.length_cons] at hlength
    refine satisfies_bind ((h.expression { d with rest }).mono (fun _ _ => id)
      (fun e he => htake.leads.trans he) ?_) ?_
    · simp only
      omega
    intro value e hvalue
    obtain ⟨us, hu, -, hexpr⟩ := hvalue
    have hall := htake.trans hu
    simp only [List.append_assoc, List.singleton_append] at hall
    have hnil : ts ++ equals :: us ≠ [] := by simp
    split
    · refine ⟨_, hall, fun _ => hnil, fun herr => ?_⟩
      exact (hop (hu.errors_nil herr)).assign_of_variable hequal (hexpr herr)
    · refine ⟨_, hall, fun _ => hnil, fun herr => ?_⟩
      exact (hop (hu.errors_nil herr)).set_of_get hequal (hexpr herr)
    · refine ⟨_, ⟨hall.eof, hall.rest, hall.errors.trans (List.suffix_cons _ _), hall.ids⟩,
        fun _ => hnil, fun herr => ?_⟩
      exact absurd herr (List.cons_ne_nil _ _)
  · intro _
    exact ⟨ts, ht, hne, fun herr => .operation (hop herr)⟩

theorem operation_succ (h : ReadsExpressions n) (levels : List Level) (c : Cursor) :
    (Parser.operation (n + 1) levels c).Satisfies (Reads (.operation levels) c) c.Leads
      (n + 1 < 16 * c.rest.length + 3 + levels.length) := by
  cases levels with
  | nil =>
      unfold Parser.operation
      refine (h.unary c).mono ?_ (fun _ => id) (by simp only [List.length_nil]; omega)
      rintro e d ⟨ts, ht, hne, hunary⟩
      exact ⟨ts, ht, hne, fun herr => .operand (hunary herr)⟩
  | cons level levels =>
      unfold Parser.operation
      refine satisfies_bind ((h.operation levels c).mono (fun _ _ => id) (fun _ => id) ?_) ?_
      · simp only [List.length_cons]
        omega
      intro left d hleft
      have hlength := hleft.length rfl
      obtain ⟨ts, ht, hne, hop⟩ := hleft
      refine (h.operationRest level levels left c d
        ⟨ts, ht, hne, fun herr => .tighter (hop herr)⟩).mono (fun _ _ => id) (fun _ => id) ?_
      simp only [List.length_cons]
      omega

theorem operationRest_succ (h : ReadsExpressions n) (level : Level) (levels : List Level)
    (left : Expr) (c d : Cursor) (hleft : Reads (.operation (level :: levels)) c left d) :
    (Parser.operationRest (n + 1) level levels left d).Satisfies
      (Reads (.operation (level :: levels)) c) c.Leads
      (n + 1 < 16 * d.rest.length + 1 + levels.length) := by
  unfold Parser.operationRest
  refine satisfies_takeIf ?_ ?_
  · intro operator rest hrest haccepts
    obtain ⟨ts, ht, hne, hop⟩ := hleft
    have htake := ht.trans (.one hrest)
    refine satisfies_bind ((h.operation levels { d with rest }).mono (fun _ _ => id)
      (fun e he => htake.leads.trans he) ?_) ?_
    · simp only [hrest, List.length_cons]
      omega
    intro right e hright
    have hlength := hright.length rfl
    obtain ⟨us, hu, -, hright⟩ := hright
    have hall := htake.trans hu
    simp only [List.append_assoc, List.singleton_append] at hall
    refine (h.operationRest level levels (level.join left operator right) c e
      ⟨_, hall, by simp, fun herr => ?_⟩).mono (fun _ _ => id) (fun _ => id) ?_
    · exact .join (hop (hu.errors_nil herr)) (hright herr) (Level.joins_iff.mpr ⟨haccepts, rfl⟩)
    · simp only [hrest, List.length_cons] at hlength ⊢
      omega
  · intro _
    exact hleft

theorem unary_succ (h : ReadsExpressions n) (c : Cursor) :
    (Parser.unary (n + 1) c).Satisfies (Reads .unary c) c.Leads
      (n + 1 < 16 * c.rest.length + 2) := by
  unfold Parser.unary
  refine satisfies_takeIf ?_ ?_
  · intro operator rest hrest haccepts
    have htake := Cursor.Took.one hrest
    refine satisfies_bind ((h.unary { c with rest }).mono (fun _ _ => id)
      (fun e he => htake.leads.trans he) ?_) ?_
    · simp only [hrest, List.length_cons]
      omega
    intro right d hright
    obtain ⟨ts, ht, -, hright⟩ := hright
    refine ⟨operator :: ts, htake.trans ht, by simp, fun herr => .unary ?_ (hright herr)⟩
    revert haccepts
    cases operator.kind <;> simp [Kind.isUnary]
  · intro _
    refine satisfies_bind ((h.primary c).mono (fun _ _ => id) (fun _ => id) (by omega)) ?_
    intro callee d hcallee
    have hlength := hcallee.length rfl
    obtain ⟨ts, ht, hne, hprimary⟩ := hcallee
    refine (h.callRest callee c d ⟨ts, ht, hne, fun herr => .callee (hprimary herr)⟩).mono ?_
      (fun _ => id) (by omega)
    rintro e d ⟨us, hu, hne, hcall⟩
    exact ⟨us, hu, hne, fun herr => .call (hcall herr)⟩

theorem arguments_succ (h : ReadsExpressions n) (front : List Expr) (c : Cursor) :
    (Parser.arguments (n + 1) front c).Satisfies
      (fun es d => ∃ rest, es = front.reverse ++ rest ∧ Reads .arguments c rest d ∧
        (d.errors = [] → front.length + rest.length ≤ maxArity))
      c.Leads (n + 1 < 16 * c.rest.length + 11) := by
  unfold Parser.arguments
  refine satisfies_limit ?_
  intro c' hc hid hrest hlimit
  refine satisfies_bind ((h.expression c').mono (fun _ _ => id)
    (fun e he => hc.leads.trans he) (by rw [hrest]; omega)) ?_
  intro argument d harg
  have hlength := harg.length rfl
  obtain ⟨ts, ht, hne, hexpr⟩ := harg
  rw [hid] at hexpr
  have hbound (herr : d.errors = []) : front.length < maxArity := by
    simpa using hlimit (ht.errors_nil herr)
  refine satisfies_take? ?_ ?_
  · intro comma rest hcomma hkind
    have htake := (hc.trans ht).trans (.one hcomma)
    refine (h.arguments (argument :: front) { d with rest }).mono ?_
      (fun e he => htake.leads.trans he) ?_
    · rintro es e ⟨others, rfl, ⟨us, hu, -, hothers⟩, hmax⟩
      refine ⟨argument :: others, by simp, ⟨ts ++ comma :: us, ?_, by simp, ?_⟩, ?_⟩
      · simpa using htake.trans hu
      · intro herr
        exact .arguments (hexpr (hu.errors_nil herr)) hkind (hothers herr)
      · intro herr
        have := hmax herr
        simp only [List.length_cons] at this ⊢
        omega
    · simp only [hcomma, List.length_cons] at hlength ⊢
      rw [hrest] at hlength
      omega
  · intro _
    refine ⟨[argument], by simp, ⟨ts, hc.trans ht, fun _ => hne rfl, ?_⟩, ?_⟩
    · intro herr
      exact .argument (hexpr herr)
    · intro herr
      exact hbound herr

theorem callRest_succ (h : ReadsExpressions n) (callee : Expr) (c d : Cursor)
    (hcallee : Reads .call c callee d) :
    (Parser.callRest (n + 1) callee d).Satisfies (Reads .call c) c.Leads
      (n + 1 < 16 * d.rest.length + 1) := by
  unfold Parser.callRest
  refine satisfies_takeIf ?_ fun _ => hcallee
  intro t rest hrest haccepts
  obtain ⟨ts, ht, hne, hcall⟩ := hcallee
  have htake := ht.trans (.one hrest)
  have hlength : d.rest.length = rest.length + 1 := by rw [hrest, List.length_cons]
  simp only
  split
  next hdot =>
    refine satisfies_expect htake.leads ?_
    intro name rest' hname hident
    have hall := htake.trans (.one hname)
    refine (h.callRest (.get callee name) c _ ⟨_, hall, by simp, ?_⟩).mono (fun _ _ => id)
      (fun _ => id) ?_
    · intro herr
      simpa using Derives.get (hcall herr) hdot hident
    · simp only at hname
      simp only [hlength, hname, List.length_cons]
      omega
  next hdot =>
    have hparen : t.kind = .leftParen := by
      revert haccepts hdot
      cases t.kind <;> simp [Kind.isCallSuffix]
    refine satisfies_bind (M := fun es e => (es = [] ∧ e = { d with rest }) ∨
      (Reads .arguments { d with rest } es e ∧ (e.errors = [] → es.length ≤ maxArity)))
      (satisfies_unlessNext (.inl ⟨rfl, rfl⟩) ((h.arguments [] { d with rest }).mono ?_
        (fun e he => htake.leads.trans he) ?_)) ?_
    · rintro es e ⟨_, rfl, hreads, hmax⟩
      exact .inr ⟨hreads, by simpa using hmax⟩
    · simp only [hlength]
      omega
    · rintro es e (⟨rfl, rfl⟩ | ⟨⟨us, hu, -, hargs⟩, hmax⟩)
      · refine satisfies_expect htake.leads ?_
        intro rparen rest' hrparen hkind
        have hall := htake.trans (.one hrparen)
        refine (h.callRest _ c _ ⟨_, hall, by simp, ?_⟩).mono (fun _ _ => id) (fun _ => id) ?_
        · intro herr
          simpa using Derives.callBare (hcall herr) hparen hkind
        · simp only at hrparen
          simp only [hlength, hrparen, List.length_cons]
          omega
      · refine satisfies_expect (htake.trans hu).leads ?_
        intro rparen rest' hrparen hkind
        have hall := (htake.trans hu).trans (.one hrparen)
        have hlength' := hu.length
        refine (h.callRest _ c _ ⟨_, hall, by simp, ?_⟩).mono (fun _ _ => id) (fun _ => id) ?_
        · intro herr
          simpa using Derives.callWith (hcall (hu.errors_nil herr)) hparen (hargs herr)
            (hmax herr) hkind
        · simp only [hrparen, List.length_cons] at hlength'
          simp only [hlength]
          omega

theorem primary_succ (h : ReadsExpressions n) (c : Cursor) :
    (Parser.primary (n + 1) c).Satisfies (Reads .primary c) c.Leads
      (n + 1 < 16 * c.rest.length + 1) := by
  unfold Parser.primary
  refine satisfies_takeIf ?_ fun _ => .refl c
  intro t rest hrest haccepts
  have htake := Cursor.Took.one hrest
  have hlength : c.rest.length = rest.length + 1 := by rw [hrest, List.length_cons]
  simp only
  generalize hkind : t.kind = kind at haccepts
  cases kind with
  | kwFalse => exact ⟨[t], htake, by simp, fun _ => .falseWord hkind⟩
  | kwTrue => exact ⟨[t], htake, by simp, fun _ => .trueWord hkind⟩
  | kwNil => exact ⟨[t], htake, by simp, fun _ => .nilWord hkind⟩
  | number x => exact ⟨[t], htake, by simp, fun _ => .number hkind⟩
  | string s => exact ⟨[t], htake, by simp, fun _ => .string hkind⟩
  | kwThis => exact ⟨[t], htake.trans (.fresh _), by simp, fun _ => .this hkind⟩
  | identifier => exact ⟨[t], htake.trans (.fresh _), by simp, fun _ => .reference hkind⟩
  | kwSuper =>
      refine satisfies_expect htake.leads ?_
      intro dot rest' hdot hdotKind
      have htake' := htake.trans (.one hdot)
      refine satisfies_expect htake'.leads ?_
      intro method rest'' hmethod hmethodKind
      have hall := (htake'.trans (.one hmethod)).trans (.fresh _)
      exact ⟨_, hall, by simp, fun _ => .super hkind hdotKind hmethodKind⟩
  | leftParen =>
      refine satisfies_bind ((h.expression { c with rest }).mono (fun _ _ => id)
        (fun e he => htake.leads.trans he) (by simp only [hlength]; omega)) ?_
      intro inner d hinner
      obtain ⟨ts, ht, -, hexpr⟩ := hinner
      refine satisfies_expect (htake.trans ht).leads ?_
      intro rparen rest' hrparen hrparenKind
      refine ⟨_, (htake.trans ht).trans (.one hrparen), by simp, fun herr => ?_⟩
      exact .grouping hkind (hexpr herr) hrparenKind
  | _ => simp [Kind.isPrimary] at haccepts

end ReadsExpressions

/-- Reading expressions is sound, whatever the budget. -/
theorem readsExpressions (n : Nat) : ReadsExpressions n := by
  induction n with
  | zero =>
      constructor <;> intros <;> simp only [expression, operation, operationRest, unary, callRest,
        arguments, primary, exhausted, Reply.Satisfies] <;> omega
  | succ n ih =>
      exact ⟨ih.expression_succ, ih.operation_succ, ih.operationRest_succ, ih.unary_succ,
        ih.callRest_succ, ih.arguments_succ, ih.primary_succ⟩

end Parser

end ScriptLang
