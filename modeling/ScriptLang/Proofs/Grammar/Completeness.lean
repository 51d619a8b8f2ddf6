import ScriptLang.Proofs.Grammar.Begins
import ScriptLang.Proofs.Grammar.Statements

/-! Reading is complete: from the tokens of a phrase, and with a token after it that does not go
on with it, the tree of the phrase is read, without an error. -/

namespace ScriptLang

/-- The first of some tokens, if there is one, is not of a kind that `accepts`. -/
def Stops (accepts : Kind → Bool) (ts : List Token) : Prop :=
  ∀ t ∈ ts.head?, accepts t.kind = false

theorem Stops.nil {accepts : Kind → Bool} : Stops accepts [] :=
  fun t ht => absurd ht (Option.not_mem_none t)

theorem Stops.cons {accepts : Kind → Bool} {t : Token} (h : accepts t.kind = false)
    (ts : List Token) : Stops accepts (t :: ts) := by
  simpa [Stops] using h

theorem Stops.imp {accepts accepts' : Kind → Bool} {ts : List Token} (h : Stops accepts ts)
    (himp : ∀ kind, accepts kind = false → accepts' kind = false) : Stops accepts' ts :=
  fun t ht => himp t.kind (h t ht)

/-- The tokens of a phrase stop whatever begins no such phrase. -/
theorem Symbol.Opens.stops {x : Symbol} {accepts : Kind → Bool} {ts : List Token}
    (h : x.Opens ts) (hx : x.nonempty = true)
    (hkinds : ∀ kind, x.begins kind = true → accepts kind = false) (us : List Token) :
    Stops accepts (ts ++ us) := by
  cases ts with
  | nil => exact absurd rfl (h.2 hx)
  | cons t ts => exact .cons (hkinds t.kind (h.1 t rfl)) (ts ++ us)

theorem Symbol.Opens.stops_self {x : Symbol} {accepts : Kind → Bool} {ts : List Token}
    (h : x.Opens ts) (hx : x.nonempty = true)
    (hkinds : ∀ kind, x.begins kind = true → accepts kind = false) : Stops accepts ts := by
  simpa using h.stops hx hkinds []

/-! ### Steps of a parser that succeed -/

namespace Parser

theorem bind_of_ok {α β : Type} {p : Parser α} {f : α → Parser β} {c d : Cursor} {a : α}
    (h : p c = .ok a d) : (p >>= f) c = f a d := by
  rw [bind_apply, h]

theorem map_of_ok {α β : Type} {p : Parser α} {f : α → β} {c d : Cursor} {a : α}
    (h : p c = .ok a d) : (f <$> p) c = .ok (f a) d := by
  rw [map_eq_pure_bind, bind_of_ok h, pure_apply]

section Steps

variable {t : Token} {rest : List Token} {eof : Token} {i : ExprId} {errors : List SyntaxError}

theorem takeIf_of_accepts {accepts : Kind → Bool} (h : accepts t.kind = true) :
    takeIf accepts ⟨t :: rest, eof, i, errors⟩ = .ok (some t) ⟨rest, eof, i, errors⟩ := by
  simp [takeIf, h]

theorem takeIf_of_stops {accepts : Kind → Bool} (h : Stops accepts rest) :
    takeIf accepts ⟨rest, eof, i, errors⟩ = .ok none ⟨rest, eof, i, errors⟩ := by
  cases rest with
  | nil => rfl
  | cons t rest => simp [takeIf, h t rfl]

theorem expect_of_kind {kind : Kind} {cause : SyntaxCause} (h : t.kind = kind) :
    expect kind cause ⟨t :: rest, eof, i, errors⟩ = .ok t ⟨rest, eof, i, errors⟩ := by
  simp [expect, h]

theorem limit_of_le {tooMany : Bool} {cause : SyntaxCause} (h : tooMany = false) :
    limit tooMany cause ⟨rest, eof, i, errors⟩ = .ok () ⟨rest, eof, i, errors⟩ := by
  simp [limit, h]

theorem unlessNext_of_kind {α : Type} {kind : Kind} {default : α} {p : Parser α}
    (h : t.kind = kind) : unlessNext kind default p ⟨t :: rest, eof, i, errors⟩ =
      .ok default ⟨t :: rest, eof, i, errors⟩ := by
  simp [unlessNext, bind_apply, next, h]

theorem unlessNext_of_stops {α : Type} {kind : Kind} {default : α} {p : Parser α}
    (h : Stops (· = kind) rest) :
    unlessNext kind default p ⟨rest, eof, i, errors⟩ = p ⟨rest, eof, i, errors⟩ := by
  cases rest with
  | nil => simp [unlessNext, bind_apply, next]
  | cons t rest =>
      have ht : t.kind ≠ kind := by simpa using h t rfl
      simp [unlessNext, bind_apply, next, ht]

theorem nextOrEnd_of_kind {t : Token} {rest : List Token} {eof : Token} {i : ExprId}
    {errors : List SyntaxError} {kind : Kind} (h : t.kind = kind) :
    nextOrEnd kind ⟨t :: rest, eof, i, errors⟩ = .ok true ⟨t :: rest, eof, i, errors⟩ := by
  simp [nextOrEnd, h]

theorem recover_of_ok {p : Parser Stmt} {s : Stmt} {c d : Cursor} (h : p c = .ok s d) :
    recover p c = .ok (some s) d := by
  simp [recover, h]

theorem nextOrEnd_of_stops {kind : Kind} (hne : rest ≠ []) (h : Stops (· = kind) rest) :
    nextOrEnd kind ⟨rest, eof, i, errors⟩ = .ok false ⟨rest, eof, i, errors⟩ := by
  cases rest with
  | nil => exact absurd rfl hne
  | cons t rest => simpa [nextOrEnd] using h t rfl

end Steps

/-! ### The rules -/

/-- Reading from the tokens of a phrase, and more, gives the tree of the phrase. Of a level of
operators, and of calls, it is said where reading stands once the phrase is read: about to look
for more of the same. -/
def Completes : (x : Symbol) → ExprId → List Token → x.Tree → ExprId → Prop
  | .declarations, i, ts, ss, j =>
      (∀ n front eof, 16 * ts.length + 13 ≤ n →
        program n front ⟨ts, eof, i, []⟩ = .ok (front.reverse ++ ss) ⟨[], eof, j, []⟩) ∧
      ∀ n front rbrace rest eof errors, rbrace.kind = .rightBrace → 16 * ts.length + 13 ≤ n →
        block n front ⟨ts ++ rbrace :: rest, eof, i, errors⟩ =
          .ok (front.reverse ++ ss) ⟨rest, eof, j, errors⟩
  | .declaration, i, ts, s, j => ∀ n rest eof errors, 16 * ts.length + 12 ≤ n →
      Stops (· = .kwElse) rest →
      declaration n ⟨ts ++ rest, eof, i, errors⟩ = .ok s ⟨rest, eof, j, errors⟩
  | .varDecl, i, ts, s, j => ∀ n rest eof errors, 16 * ts.length ≤ n →
      varDeclaration n ⟨ts.tail ++ rest, eof, i, errors⟩ = .ok s ⟨rest, eof, j, errors⟩
  | .functions, i, ts, ds, j => ∀ n front rbrace rest eof errors, rbrace.kind = .rightBrace →
      16 * ts.length + 2 ≤ n →
      methods n front ⟨ts ++ rbrace :: rest, eof, i, errors⟩ =
        .ok (front.reverse ++ ds) ⟨rbrace :: rest, eof, j, errors⟩
  | .function, i, ts, d, j => ∀ n what rest eof errors, 16 * ts.length + 1 ≤ n →
      function n what ⟨ts ++ rest, eof, i, errors⟩ = .ok d ⟨rest, eof, j, errors⟩
  | .parameters, i, ts, ps, j => ∀ n front rest eof errors, 16 * ts.length + 1 ≤ n →
      front.length + ps.length ≤ maxArity → Stops (· = .comma) rest →
      parameters n front ⟨ts ++ rest, eof, i, errors⟩ =
        .ok (front.reverse ++ ps) ⟨rest, eof, j, errors⟩
  | .statement dangling, i, ts, s, j => ∀ n rest eof errors, 16 * ts.length + 11 ≤ n →
      (dangling = true → Stops (· = .kwElse) rest) →
      statement n ⟨ts ++ rest, eof, i, errors⟩ = .ok s ⟨rest, eof, j, errors⟩
  | .exprStmt, i, ts, s, j => ∀ n rest eof errors, 16 * ts.length + 10 ≤ n →
      expressionStatement n ⟨ts ++ rest, eof, i, errors⟩ = .ok s ⟨rest, eof, j, errors⟩
  | .forInit, i, ts, s, j => ∀ n rest eof errors, 16 * ts.length + 10 ≤ n →
      loopInitializer n ⟨ts ++ rest, eof, i, errors⟩ = .ok s ⟨rest, eof, j, errors⟩
  | .optional, i, ts, e, j => ∀ n kind t rest eof errors, 16 * ts.length + 10 ≤ n →
      t.kind = kind → kind.extendsExpression = false → kind.beginsExpression = false →
      expressionUnless n kind ⟨ts ++ t :: rest, eof, i, errors⟩ = .ok e ⟨t :: rest, eof, j, errors⟩
  | .expression, i, ts, e, j => ∀ n rest eof errors, 16 * ts.length + 10 ≤ n →
      Stops Kind.extendsExpression rest →
      expression n ⟨ts ++ rest, eof, i, errors⟩ = .ok e ⟨rest, eof, j, errors⟩
  | .operation [], i, ts, e, j => ∀ n rest eof errors, 16 * ts.length + 3 ≤ n →
      Stops (Kind.extendsOperation []) rest →
      operation n [] ⟨ts ++ rest, eof, i, errors⟩ = .ok e ⟨rest, eof, j, errors⟩
  | .operation (level :: levels), i, ts, e, j => level :: levels <:+ Level.all →
      ∀ n rest eof errors, 16 * ts.length + 4 + levels.length ≤ n →
      Stops (Kind.extendsOperation levels) rest →
      ∃ m, n ≤ m + 1 + ts.length ∧ operation n (level :: levels) ⟨ts ++ rest, eof, i, errors⟩ =
        operationRest m level levels e ⟨rest, eof, j, errors⟩
  | .unary, i, ts, e, j => ∀ n rest eof errors, 16 * ts.length + 2 ≤ n →
      Stops Kind.isCallSuffix rest →
      unary n ⟨ts ++ rest, eof, i, errors⟩ = .ok e ⟨rest, eof, j, errors⟩
  | .call, i, ts, e, j => ∀ n rest eof errors, 16 * ts.length + 2 ≤ n →
      ∃ m, n ≤ m + 1 + ts.length ∧ unary n ⟨ts ++ rest, eof, i, errors⟩ =
        callRest m e ⟨rest, eof, j, errors⟩
  | .arguments, i, ts, es, j => ∀ n front rest eof errors, 16 * ts.length + 11 ≤ n →
      front.length + es.length ≤ maxArity →
      Stops Kind.extendsExpression rest → Stops (· = .comma) rest →
      arguments n front ⟨ts ++ rest, eof, i, errors⟩ =
        .ok (front.reverse ++ es) ⟨rest, eof, j, errors⟩
  | .primary, i, ts, e, j => ∀ n rest eof errors, 16 * ts.length + 1 ≤ n →
      primary n ⟨ts ++ rest, eof, i, errors⟩ = .ok e ⟨rest, eof, j, errors⟩

namespace Completes

section Expressions

variable {i j k : ExprId} {ts us : List Token}

/-- With a token after it that does not go on with it, an operation is read to its end. -/
theorem operation_eq {levels : List Level} {e : Expr}
    (h : Completes (.operation levels) i ts e j) (hlevels : levels <:+ Level.all) (n : Nat)
    (rest : List Token) (eof : Token) (errors : List SyntaxError)
    (hn : 16 * ts.length + 3 + levels.length ≤ n)
    (hstop : Stops (Kind.extendsOperation levels) rest) :
    Parser.operation n levels ⟨ts ++ rest, eof, i, errors⟩ = .ok e ⟨rest, eof, j, errors⟩ := by
  cases levels with
  | nil => exact h n rest eof errors hn hstop
  | cons level levels =>
      simp only [List.length_cons] at hn
      obtain ⟨m, hm, heq⟩ := h hlevels n rest eof errors (by omega)
        (hstop.imp (by simp +contextual [Kind.extendsOperation]))
      obtain ⟨m, rfl⟩ : ∃ m', m = m' + 1 := ⟨m - 1, by omega⟩
      have hnone : Stops level.accepts rest :=
        hstop.imp (by simp +contextual [Kind.extendsOperation])
      rw [heq, operationRest]
      exact bind_of_ok (takeIf_of_stops hnone)

theorem operand {e : Expr} (h : Completes .unary i ts e j) :
    Completes (.operation []) i ts e j := by
  intro n rest eof errors hn hstop
  obtain ⟨n, rfl⟩ : ∃ n', n = n' + 1 := ⟨n - 1, by omega⟩
  rw [operation]
  exact h n rest eof errors (by omega) (hstop.imp (by simp [Kind.extendsOperation]))

theorem tighter {level : Level} {levels : List Level} {e : Expr}
    (h : Completes (.operation levels) i ts e j) :
    Completes (.operation (level :: levels)) i ts e j := by
  intro hlevels n rest eof errors hn hstop
  obtain ⟨n, rfl⟩ : ∃ n', n = n' + 1 := ⟨n - 1, by omega⟩
  have hsuffix : levels <:+ Level.all := (List.suffix_cons level levels).trans hlevels
  refine ⟨n, by omega, ?_⟩
  rw [operation, bind_of_ok (h.operation_eq hsuffix n rest eof errors (by omega) hstop)]

theorem join {level : Level} {levels : List Level} {left right e : Expr} {operator : Token}
    (hleft : Completes (.operation (level :: levels)) i ts left j)
    (hright : Completes (.operation levels) j us right k)
    (hjoins : level.Joins left operator right e) :
    Completes (.operation (level :: levels)) i (ts ++ operator :: us) e k := by
  obtain ⟨hoperator, rfl⟩ := Level.joins_iff.mp hjoins
  intro hlevels n rest eof errors hn hstop
  have hsuffix : levels <:+ Level.all := (List.suffix_cons level levels).trans hlevels
  simp only [List.length_append, List.length_cons] at hn ⊢
  obtain ⟨m, hm, heq⟩ := hleft hlevels n (operator :: us ++ rest) eof errors (by omega)
    (.cons (Level.stops_of_accepts hlevels hoperator) _)
  obtain ⟨m, rfl⟩ : ∃ m', m = m' + 1 := ⟨m - 1, by omega⟩
  refine ⟨m, by omega, ?_⟩
  rw [List.append_assoc, heq, operationRest, List.cons_append,
    bind_of_ok (takeIf_of_accepts hoperator)]
  simp only
  rw [bind_of_ok (hright.operation_eq hsuffix m rest eof errors (by omega) hstop)]

theorem unary {operator : Token} {e : Expr} (hkind : operator.kind = .bang ∨ operator.kind = .minus)
    (h : Completes .unary i ts e j) :
    Completes .unary i (operator :: ts) (.unary operator e) j := by
  intro n rest eof errors hn hstop
  obtain ⟨n, rfl⟩ : ∃ n', n = n' + 1 := ⟨n - 1, by omega⟩
  have haccepts : operator.kind.isUnary = true := by
    rcases hkind with hkind | hkind <;> simp [hkind, Kind.isUnary]
  simp only [List.length_cons] at hn
  rw [Parser.unary, List.cons_append, bind_of_ok (takeIf_of_accepts haccepts)]
  simp only
  rw [bind_of_ok (h n rest eof errors (by omega) hstop), pure_apply]

theorem call {e : Expr} (h : Completes .call i ts e j) : Completes .unary i ts e j := by
  intro n rest eof errors hn hstop
  obtain ⟨m, hm, heq⟩ := h n rest eof errors hn
  obtain ⟨m, rfl⟩ : ∃ m', m = m' + 1 := ⟨m - 1, by omega⟩
  rw [heq, callRest]
  exact bind_of_ok (takeIf_of_stops hstop)

theorem callee {e : Expr} (h : Completes .primary i ts e j) (hopens : Symbol.primary.Opens ts) :
    Completes .call i ts e j := by
  intro n rest eof errors hn
  obtain ⟨n, rfl⟩ : ∃ n', n = n' + 1 := ⟨n - 1, by omega⟩
  have hstop : Stops Kind.isUnary (ts ++ rest) := by
    refine hopens.stops rfl (fun kind hkind => ?_) rest
    cases kind <;> first | rfl | cases hkind
  refine ⟨n, by omega, ?_⟩
  rw [Parser.unary, bind_of_ok (takeIf_of_stops hstop)]
  simp only
  rw [bind_of_ok (h n rest eof errors (by omega))]

theorem get {e : Expr} {dot name : Token} (h : Completes .call i ts e j)
    (hdot : dot.kind = .dot) (hname : name.kind = .identifier) :
    Completes .call i (ts ++ [dot, name]) (.get e name) j := by
  intro n rest eof errors hn
  simp only [List.length_append, List.length_cons, List.length_nil] at hn ⊢
  obtain ⟨m, hm, heq⟩ := h n (dot :: name :: rest) eof errors (by omega)
  obtain ⟨m, rfl⟩ : ∃ m', m = m' + 1 := ⟨m - 1, by omega⟩
  have haccepts : dot.kind.isCallSuffix = true := by simp [hdot, Kind.isCallSuffix]
  refine ⟨m, by omega, ?_⟩
  rw [List.append_assoc, List.cons_append, List.cons_append, List.nil_append, heq, callRest,
    bind_of_ok (takeIf_of_accepts haccepts)]
  simp only [hdot, if_true]
  rw [bind_of_ok (expect_of_kind hname)]

theorem callBare {e : Expr} {lparen rparen : Token} (h : Completes .call i ts e j)
    (hlparen : lparen.kind = .leftParen) (hrparen : rparen.kind = .rightParen) :
    Completes .call i (ts ++ [lparen, rparen]) (.call e rparen []) j := by
  intro n rest eof errors hn
  simp only [List.length_append, List.length_cons, List.length_nil] at hn ⊢
  obtain ⟨m, hm, heq⟩ := h n (lparen :: rparen :: rest) eof errors (by omega)
  obtain ⟨m, rfl⟩ : ∃ m', m = m' + 1 := ⟨m - 1, by omega⟩
  have haccepts : lparen.kind.isCallSuffix = true := by simp [hlparen, Kind.isCallSuffix]
  refine ⟨m, by omega, ?_⟩
  rw [List.append_assoc, List.cons_append, List.cons_append, List.nil_append, heq, callRest,
    bind_of_ok (takeIf_of_accepts haccepts)]
  simp only [hlparen, reduceCtorEq, if_false]
  rw [bind_of_ok (unlessNext_of_kind hrparen), bind_of_ok (expect_of_kind hrparen)]

theorem callWith {e : Expr} {lparen rparen : Token} {arguments : List Expr}
    (h : Completes .call i ts e j) (hlparen : lparen.kind = .leftParen)
    (harguments : Completes .arguments j us arguments k) (hopens : Symbol.arguments.Opens us)
    (hmax : arguments.length ≤ maxArity) (hrparen : rparen.kind = .rightParen) :
    Completes .call i (ts ++ lparen :: us ++ [rparen]) (.call e rparen arguments) k := by
  intro n rest eof errors hn
  simp only [List.length_append, List.length_cons, List.length_nil] at hn ⊢
  obtain ⟨m, hm, heq⟩ := h n (lparen :: us ++ rparen :: rest) eof errors (by omega)
  obtain ⟨m, rfl⟩ : ∃ m', m = m' + 1 := ⟨m - 1, by omega⟩
  have haccepts : lparen.kind.isCallSuffix = true := by simp [hlparen, Kind.isCallSuffix]
  have hstop : Stops (· = .rightParen) (us ++ rparen :: rest) := by
    refine hopens.stops rfl (fun kind hkind => ?_) _
    cases kind <;> first | rfl | cases hkind
  have hread := harguments m [] (rparen :: rest) eof errors (by omega) (by simpa using hmax)
    (.cons (by rw [hrparen]; decide) rest) (.cons (by rw [hrparen]; decide) rest)
  refine ⟨m, by omega, ?_⟩
  rw [List.append_assoc, List.append_assoc, List.singleton_append, heq, callRest, List.cons_append,
    bind_of_ok (takeIf_of_accepts haccepts)]
  simp only [hlparen, reduceCtorEq, if_false]
  rw [bind_of_ok ((unlessNext_of_stops hstop).trans hread), bind_of_ok (expect_of_kind hrparen)]
  rfl

/-- A literal, a name or `this` is read from one token. -/
theorem primary_of_token {t : Token} {e : Expr}
    (h : ∀ n rest eof errors, Parser.primary (n + 1) ⟨t :: rest, eof, i, errors⟩ =
      .ok e ⟨rest, eof, j, errors⟩) : Completes .primary i [t] e j := by
  intro n rest eof errors hn
  obtain ⟨n, rfl⟩ : ∃ n', n = n' + 1 := ⟨n - 1, by omega⟩
  exact h n rest eof errors

theorem this {t : Token} (hkind : t.kind = .kwThis) :
    Completes .primary i [t] (.this i t) (i + 1) := by
  refine primary_of_token fun n rest eof errors => ?_
  have haccepts : t.kind.isPrimary = true := by simp [hkind, Kind.isPrimary]
  rw [Parser.primary]
  refine (bind_of_ok (takeIf_of_accepts haccepts)).trans ?_
  simp only [hkind]
  exact map_of_ok rfl

theorem reference {t : Token} (hkind : t.kind = .identifier) :
    Completes .primary i [t] (.variable i t) (i + 1) := by
  refine primary_of_token fun n rest eof errors => ?_
  have haccepts : t.kind.isPrimary = true := by simp [hkind, Kind.isPrimary]
  rw [Parser.primary]
  refine (bind_of_ok (takeIf_of_accepts haccepts)).trans ?_
  simp only [hkind]
  exact map_of_ok rfl

theorem operation_of_call {e : Expr} (h : Completes .call i ts e j) (levels : List Level) :
    Completes (.operation levels) i ts e j := by
  induction levels with
  | nil => exact h.call.operand
  | cons level levels ih => exact ih.tighter

theorem argument {e : Expr} (h : Completes .expression i ts e j) :
    Completes .arguments i ts [e] j := by
  intro n front rest eof errors hn hmax hstop hcomma
  obtain ⟨n, rfl⟩ : ∃ n', n = n' + 1 := ⟨n - 1, by omega⟩
  have hlimit : decide (maxArity ≤ front.length) = false := by
    simp only [List.length_singleton] at hmax
    exact decide_eq_false (by omega)
  rw [Parser.arguments, bind_of_ok (limit_of_le hlimit),
    bind_of_ok (h n rest eof errors (by omega) hstop)]
  refine (bind_of_ok (takeIf_of_stops hcomma)).trans ?_
  simp

theorem arguments {e : Expr} {es : List Expr} {comma : Token}
    (h : Completes .expression i ts e j) (hcomma : comma.kind = .comma)
    (hrest : Completes .arguments j us es k) :
    Completes .arguments i (ts ++ comma :: us) (e :: es) k := by
  intro n front rest eof errors hn hmax hstop hstop'
  obtain ⟨n, rfl⟩ : ∃ n', n = n' + 1 := ⟨n - 1, by omega⟩
  simp only [List.length_append, List.length_cons] at hn hmax
  have hlimit : decide (maxArity ≤ front.length) = false := decide_eq_false (by omega)
  have hread := h n (comma :: us ++ rest) eof errors (by omega)
    (.cons (by rw [hcomma]; decide) _)
  have hothers := hrest n (e :: front) rest eof errors (by omega)
    (by simp only [List.length_cons]; omega) hstop hstop'
  rw [Parser.arguments, bind_of_ok (limit_of_le hlimit), List.append_assoc, bind_of_ok hread]
  refine (bind_of_ok (takeIf_of_accepts (by simp [hcomma]))).trans ?_
  simpa using hothers

theorem operation {e : Expr} (h : Completes (.operation Level.all) i ts e j) :
    Completes .expression i ts e j := by
  intro n rest eof errors hn hstop
  obtain ⟨n, rfl⟩ : ∃ n', n = n' + 1 := ⟨n - 1, by omega⟩
  have hread := h.operation_eq List.suffix_rfl n rest eof errors
    (by simp only [Level.all, List.length_cons, List.length_nil]; omega)
    (hstop.imp (by simp +contextual [Kind.extendsExpression]))
  rw [Parser.expression, bind_of_ok hread]
  exact bind_of_ok (takeIf_of_stops (hstop.imp (by simp +contextual [Kind.extendsExpression])))

/-- A target is read as an operation, and the rest of an assignment after it. -/
theorem assignment_eq {target e : Expr} {equal : Token}
    (htarget : Completes (.operation Level.all) i ts target j) (hequal : equal.kind = .equal)
    (h : Completes .expression j us e k) (n : Nat) (rest : List Token) (eof : Token)
    (errors : List SyntaxError) (hn : 16 * (ts ++ equal :: us).length + 9 ≤ n)
    (hstop : Stops Kind.extendsExpression rest) :
    Parser.operation n Level.all ⟨(ts ++ equal :: us) ++ rest, eof, i, errors⟩ =
        .ok target ⟨equal :: us ++ rest, eof, j, errors⟩ ∧
      Parser.expression n ⟨us ++ rest, eof, j, errors⟩ = .ok e ⟨rest, eof, k, errors⟩ := by
  simp only [List.length_append, List.length_cons] at hn
  refine ⟨?_, h n rest eof errors (by omega) hstop⟩
  rw [List.append_assoc]
  refine htarget.operation_eq List.suffix_rfl n _ eof errors ?_ (.cons (by rw [hequal]; decide) _)
  simp only [Level.all, List.length_cons, List.length_nil]
  omega

theorem assign {e : Expr} {name equal : Token} (hname : name.kind = .identifier)
    (hequal : equal.kind = .equal) (h : Completes .expression (i + 1) ts e j) :
    Completes .expression i (name :: equal :: ts) (.assign i name e) j := by
  have htarget : Completes .call i [name] (.variable i name) (i + 1) :=
    (reference hname).callee (.of_begins (by simp [Symbol.begins, Kind.isPrimary, hname]) [])
  intro n rest eof errors hn hstop
  obtain ⟨n, rfl⟩ : ∃ n', n = n' + 1 := ⟨n - 1, by omega⟩
  obtain ⟨hread, hvalue⟩ := assignment_eq (htarget.operation_of_call Level.all) hequal h n rest
    eof errors (by simp only [List.length_cons, List.length_append, List.length_nil] at hn ⊢; omega)
    hstop
  rw [Parser.expression, ← List.singleton_append, bind_of_ok hread]
  refine (bind_of_ok (takeIf_of_accepts (by simp [hequal]))).trans ?_
  exact bind_of_ok hvalue

theorem set {object e : Expr} {dot name equal : Token}
    (htarget : Completes (.operation Level.all) i (ts ++ [dot, name]) (.get object name) j)
    (hequal : equal.kind = .equal) (h : Completes .expression j us e k) :
    Completes .expression i (ts ++ dot :: name :: equal :: us) (.set object name e) k := by
  intro n rest eof errors hn hstop
  obtain ⟨n, rfl⟩ : ∃ n', n = n' + 1 := ⟨n - 1, by omega⟩
  obtain ⟨hread, hvalue⟩ := assignment_eq htarget hequal h n rest eof errors
    (by simp only [List.length_cons, List.length_append, List.length_nil] at hn ⊢; omega) hstop
  have hsplit : ts ++ dot :: name :: equal :: us = (ts ++ [dot, name]) ++ equal :: us := by simp
  rw [Parser.expression, hsplit, bind_of_ok hread]
  refine (bind_of_ok (takeIf_of_accepts (by simp [hequal]))).trans ?_
  exact bind_of_ok hvalue

theorem super {keyword dot method : Token} (hkeyword : keyword.kind = .kwSuper)
    (hdot : dot.kind = .dot) (hmethod : method.kind = .identifier) :
    Completes .primary i [keyword, dot, method] (.super i keyword method) (i + 1) := by
  intro n rest eof errors hn
  obtain ⟨n, rfl⟩ : ∃ n', n = n' + 1 := ⟨n - 1, by omega⟩
  have haccepts : keyword.kind.isPrimary = true := by simp [hkeyword, Kind.isPrimary]
  rw [Parser.primary]
  refine (bind_of_ok (takeIf_of_accepts haccepts)).trans ?_
  simp only [hkeyword]
  refine (bind_of_ok (expect_of_kind hdot)).trans ?_
  exact bind_of_ok (expect_of_kind hmethod)

theorem grouping {e : Expr} {lparen rparen : Token} (hlparen : lparen.kind = .leftParen)
    (h : Completes .expression i ts e j) (hrparen : rparen.kind = .rightParen) :
    Completes .primary i (lparen :: ts ++ [rparen]) (.grouping e) j := by
  intro n rest eof errors hn
  obtain ⟨n, rfl⟩ : ∃ n', n = n' + 1 := ⟨n - 1, by omega⟩
  simp only [List.length_append, List.length_cons, List.length_nil] at hn
  have haccepts : lparen.kind.isPrimary = true := by simp [hlparen, Kind.isPrimary]
  have hread := h n (rparen :: rest) eof errors (by omega) (.cons (by rw [hrparen]; decide) rest)
  rw [Parser.primary, List.append_assoc, List.singleton_append]
  refine (bind_of_ok (takeIf_of_accepts haccepts)).trans ?_
  simp only [hlparen]
  refine (bind_of_ok hread).trans ?_
  exact bind_of_ok (expect_of_kind hrparen)

theorem absent : Completes .optional i [] none i := by
  intro n kind t rest eof errors _ hkind _ _
  exact unlessNext_of_kind hkind

theorem present {e : Expr} (h : Completes .expression i ts e j)
    (hopens : Symbol.expression.Opens ts) : Completes .optional i ts (some e) j := by
  intro n kind t rest eof errors hn hkind hextends hbegins
  have hstop : Stops (· = kind) (ts ++ t :: rest) := by
    refine hopens.stops rfl (fun kind' hkind' => decide_eq_false ?_) _
    rintro rfl
    simp [Symbol.begins, hbegins] at hkind'
  refine (unlessNext_of_stops hstop).trans (map_of_ok ?_)
  exact h n (t :: rest) eof errors hn (.cons (by rw [hkind, hextends]) rest)

end Expressions

section Statements

variable {i j k l m : ExprId} {ts us vs ws : List Token}

theorem exprStmt {e : Expr} {semicolon : Token} (h : Completes .expression i ts e j)
    (hsemicolon : semicolon.kind = .semicolon) :
    Completes .exprStmt i (ts ++ [semicolon]) (.expression e) j := by
  intro n rest eof errors hn
  simp only [List.length_append, List.length_cons, List.length_nil] at hn
  have hread := h n (semicolon :: rest) eof errors (by omega)
    (.cons (by rw [hsemicolon]; decide) rest)
  rw [List.append_assoc, List.singleton_append]
  refine (bind_of_ok hread).trans ?_
  exact bind_of_ok (expect_of_kind hsemicolon)

theorem varBare {keyword name semicolon : Token} (hname : name.kind = .identifier)
    (hsemicolon : semicolon.kind = .semicolon) :
    Completes .varDecl i [keyword, name, semicolon] (.var name none) i := by
  intro n rest eof errors _
  have hnone : Stops (· = .equal) (semicolon :: rest) := .cons (by simp [hsemicolon]) rest
  have hinit : initializer n ⟨semicolon :: rest, eof, i, errors⟩ =
      .ok none ⟨semicolon :: rest, eof, i, errors⟩ := bind_of_ok (takeIf_of_stops hnone)
  refine (bind_of_ok (expect_of_kind hname)).trans ?_
  refine (bind_of_ok hinit).trans ?_
  exact bind_of_ok (expect_of_kind hsemicolon)

theorem varInit {keyword name equal semicolon : Token} {e : Expr}
    (hname : name.kind = .identifier) (hequal : equal.kind = .equal)
    (h : Completes .expression i ts e j) (hsemicolon : semicolon.kind = .semicolon) :
    Completes .varDecl i (keyword :: name :: equal :: ts ++ [semicolon])
      (.var name (some e)) j := by
  intro n rest eof errors hn
  simp only [List.length_append, List.length_cons, List.length_nil] at hn
  have hread := h n (semicolon :: rest) eof errors (by omega)
    (.cons (by rw [hsemicolon]; decide) rest)
  have hinit : initializer n ⟨equal :: ts ++ semicolon :: rest, eof, i, errors⟩ =
      .ok (some e) ⟨semicolon :: rest, eof, j, errors⟩ :=
    (bind_of_ok (takeIf_of_accepts (by simp [hequal]))).trans (map_of_ok hread)
  simp only [List.cons_append, List.tail_cons, List.append_assoc, List.nil_append]
  refine (bind_of_ok (expect_of_kind hname)).trans ?_
  refine (bind_of_ok hinit).trans ?_
  exact bind_of_ok (expect_of_kind hsemicolon)

theorem forNone {semicolon : Token} (hsemicolon : semicolon.kind = .semicolon) :
    Completes .forInit i [semicolon] none i := by
  intro n rest eof errors _
  refine (bind_of_ok (takeIf_of_accepts (by simp [hsemicolon]))).trans ?_
  simp [hsemicolon]

theorem forVar {s : Stmt} (h : Completes .varDecl i ts s j) (hopens : Symbol.varDecl.Opens ts) :
    Completes .forInit i ts (some s) j := by
  intro n rest eof errors hn
  cases ts with
  | nil => exact absurd rfl (hopens.2 rfl)
  | cons keyword ts =>
      have hkind : keyword.kind = .kwVar := by simpa [Symbol.begins] using hopens.1 keyword rfl
      refine (bind_of_ok (takeIf_of_accepts (by simp [hkind]))).trans ?_
      simp only [hkind, reduceCtorEq, if_false]
      exact map_of_ok (h n rest eof errors (by omega))

theorem forExpr {s : Stmt} (h : Completes .exprStmt i ts s j) (hopens : Symbol.exprStmt.Opens ts) :
    Completes .forInit i ts (some s) j := by
  intro n rest eof errors hn
  have hstop : Stops (fun kind => kind = .semicolon || kind = .kwVar) (ts ++ rest) := by
    refine hopens.stops rfl (fun kind hkind => ?_) rest
    cases kind <;> first | rfl | cases hkind
  refine (bind_of_ok (takeIf_of_stops hstop)).trans ?_
  exact map_of_ok (h n rest eof errors hn)

theorem parameter {name : Token} (hname : name.kind = .identifier) :
    Completes .parameters i [name] [name] i := by
  intro n front rest eof errors hn hmax hstop
  obtain ⟨n, rfl⟩ : ∃ n', n = n' + 1 := ⟨n - 1, by omega⟩
  have hlimit : decide (maxArity ≤ front.length) = false := by
    simp only [List.length_singleton] at hmax
    exact decide_eq_false (by omega)
  rw [Parser.parameters, bind_of_ok (limit_of_le hlimit), List.singleton_append,
    bind_of_ok (expect_of_kind hname)]
  refine (bind_of_ok (takeIf_of_stops hstop)).trans ?_
  simp

theorem parameters {name comma : Token} {ps : List Token} (hname : name.kind = .identifier)
    (hcomma : comma.kind = .comma) (h : Completes .parameters i ts ps j) :
    Completes .parameters i (name :: comma :: ts) (name :: ps) j := by
  intro n front rest eof errors hn hmax hstop
  obtain ⟨n, rfl⟩ : ∃ n', n = n' + 1 := ⟨n - 1, by omega⟩
  simp only [List.length_cons] at hn hmax
  have hlimit : decide (maxArity ≤ front.length) = false := decide_eq_false (by omega)
  have hothers := h n (name :: front) rest eof errors (by omega)
    (by simp only [List.length_cons]; omega) hstop
  rw [Parser.parameters, bind_of_ok (limit_of_le hlimit), List.cons_append,
    bind_of_ok (expect_of_kind hname)]
  refine (bind_of_ok (takeIf_of_accepts (by simp [hcomma]))).trans ?_
  simpa using hothers

/-- A statement that begins with a keyword or a brace. -/
theorem statement_eq {t : Token} {rest : List Token} {eof : Token} {errors : List SyntaxError}
    (hkind : t.kind.beginsStatement = true) (n : Nat) :
    Parser.statement (n + 1) ⟨t :: rest, eof, i, errors⟩ =
      (match t.kind with
        | .kwFor => Parser.forStatement n
        | .kwIf => Parser.ifStatement n
        | .kwPrint => printStatement n
        | .kwReturn => returnStatement n t
        | .kwWhile => Parser.whileStatement n
        | _ => .block <$> Parser.block n []) ⟨rest, eof, i, errors⟩ := by
  rw [Parser.statement]
  exact bind_of_ok (takeIf_of_accepts hkind)

theorem exprStatement {s : Stmt} (h : Completes .exprStmt i ts s j)
    (hopens : Symbol.exprStmt.Opens ts) : Completes (.statement false) i ts s j := by
  intro n rest eof errors hn _
  obtain ⟨n, rfl⟩ : ∃ n', n = n' + 1 := ⟨n - 1, by omega⟩
  have hstop : Stops Kind.beginsStatement (ts ++ rest) := by
    refine hopens.stops rfl (fun kind hkind => ?_) rest
    cases kind <;> first | rfl | cases hkind
  rw [Parser.statement]
  refine (bind_of_ok (takeIf_of_stops hstop)).trans ?_
  exact h n rest eof errors (by omega)

theorem print {e : Expr} {keyword semicolon : Token} (hkeyword : keyword.kind = .kwPrint)
    (h : Completes .expression i ts e j) (hsemicolon : semicolon.kind = .semicolon) :
    Completes (.statement false) i (keyword :: ts ++ [semicolon]) (.print e) j := by
  intro n rest eof errors hn _
  obtain ⟨n, rfl⟩ : ∃ n', n = n' + 1 := ⟨n - 1, by omega⟩
  simp only [List.length_append, List.length_cons, List.length_nil] at hn
  have hread := h n (semicolon :: rest) eof errors (by omega)
    (.cons (by rw [hsemicolon]; decide) rest)
  simp only [List.cons_append, List.append_assoc, List.nil_append]
  rw [statement_eq (by simp [hkeyword, Kind.beginsStatement])]
  simp only [hkeyword]
  refine (bind_of_ok hread).trans ?_
  exact bind_of_ok (expect_of_kind hsemicolon)

theorem ret {e : Option Expr} {keyword semicolon : Token} (hkeyword : keyword.kind = .kwReturn)
    (h : Completes .optional i ts e j) (hsemicolon : semicolon.kind = .semicolon) :
    Completes (.statement false) i (keyword :: ts ++ [semicolon]) (.ret keyword e) j := by
  intro n rest eof errors hn _
  obtain ⟨n, rfl⟩ : ∃ n', n = n' + 1 := ⟨n - 1, by omega⟩
  simp only [List.length_append, List.length_cons, List.length_nil] at hn
  have hread := h n .semicolon semicolon rest eof errors (by omega) hsemicolon (by decide)
    (by decide)
  simp only [List.cons_append, List.append_assoc, List.nil_append]
  rw [statement_eq (by simp [hkeyword, Kind.beginsStatement])]
  simp only [hkeyword]
  refine (bind_of_ok hread).trans ?_
  exact bind_of_ok (expect_of_kind hsemicolon)

theorem whileStatement {condition : Expr} {s : Stmt} {keyword lparen rparen : Token}
    {dangling : Bool} (hkeyword : keyword.kind = .kwWhile) (hlparen : lparen.kind = .leftParen)
    (hcondition : Completes .expression i ts condition j) (hrparen : rparen.kind = .rightParen)
    (h : Completes (.statement dangling) j us s k) :
    Completes (.statement dangling) i (keyword :: lparen :: ts ++ rparen :: us)
      (.loop condition s) k := by
  intro n rest eof errors hn helse
  obtain ⟨n, rfl⟩ : ∃ n', n = n' + 2 := ⟨n - 2, by omega⟩
  simp only [List.length_append, List.length_cons] at hn
  have hread := hcondition n (rparen :: us ++ rest) eof errors (by omega)
    (.cons (by rw [hrparen]; decide) _)
  have hbody := h n rest eof errors (by omega) helse
  simp only [List.cons_append, List.append_assoc]
  rw [statement_eq (by simp [hkeyword, Kind.beginsStatement])]
  simp only [hkeyword]
  rw [Parser.whileStatement]
  refine (bind_of_ok (expect_of_kind hlparen)).trans ?_
  refine (bind_of_ok hread).trans ?_
  refine (bind_of_ok (expect_of_kind hrparen)).trans ?_
  exact bind_of_ok hbody

theorem ifThen {condition : Expr} {s : Stmt} {keyword lparen rparen : Token} (dangling : Bool)
    (hkeyword : keyword.kind = .kwIf) (hlparen : lparen.kind = .leftParen)
    (hcondition : Completes .expression i ts condition j) (hrparen : rparen.kind = .rightParen)
    (h : Completes (.statement dangling) j us s k) :
    Completes (.statement true) i (keyword :: lparen :: ts ++ rparen :: us)
      (.ifThen condition s) k := by
  intro n rest eof errors hn helse
  obtain ⟨n, rfl⟩ : ∃ n', n = n' + 2 := ⟨n - 2, by omega⟩
  simp only [List.length_append, List.length_cons] at hn
  have hread := hcondition n (rparen :: us ++ rest) eof errors (by omega)
    (.cons (by rw [hrparen]; decide) _)
  have hbranch := h n rest eof errors (by omega) fun _ => helse rfl
  simp only [List.cons_append, List.append_assoc]
  rw [statement_eq (by simp [hkeyword, Kind.beginsStatement])]
  simp only [hkeyword]
  rw [Parser.ifStatement]
  refine (bind_of_ok (expect_of_kind hlparen)).trans ?_
  refine (bind_of_ok hread).trans ?_
  refine (bind_of_ok (expect_of_kind hrparen)).trans ?_
  refine (bind_of_ok hbranch).trans ?_
  exact bind_of_ok (takeIf_of_stops (helse rfl))

theorem ifElse {condition : Expr} {s t : Stmt} {keyword lparen rparen otherwise : Token}
    {dangling : Bool} (hkeyword : keyword.kind = .kwIf) (hlparen : lparen.kind = .leftParen)
    (hcondition : Completes .expression i ts condition j) (hrparen : rparen.kind = .rightParen)
    (hthen : Completes (.statement false) j us s k) (hotherwise : otherwise.kind = .kwElse)
    (helse : Completes (.statement dangling) k vs t l) :
    Completes (.statement dangling) i (keyword :: lparen :: ts ++ rparen :: us ++ otherwise :: vs)
      (.ifElse condition s t) l := by
  intro n rest eof errors hn hstop
  obtain ⟨n, rfl⟩ : ∃ n', n = n' + 2 := ⟨n - 2, by omega⟩
  simp only [List.length_append, List.length_cons] at hn
  have hread := hcondition n (rparen :: us ++ (otherwise :: vs ++ rest)) eof errors (by omega)
    (.cons (by rw [hrparen]; decide) _)
  have hbranch := hthen n (otherwise :: vs ++ rest) eof errors (by omega) (by simp)
  have hother := helse n rest eof errors (by omega) hstop
  simp only [List.cons_append, List.append_assoc]
  rw [statement_eq (by simp [hkeyword, Kind.beginsStatement])]
  simp only [hkeyword]
  rw [Parser.ifStatement]
  refine (bind_of_ok (expect_of_kind hlparen)).trans ?_
  refine (bind_of_ok hread).trans ?_
  refine (bind_of_ok (expect_of_kind hrparen)).trans ?_
  refine (bind_of_ok hbranch).trans ?_
  refine (bind_of_ok (takeIf_of_accepts (by simp [hotherwise]))).trans ?_
  exact bind_of_ok hother

theorem forStatement {init : Option Stmt} {condition increment : Option Expr} {body s : Stmt}
    {keyword lparen semicolon rparen : Token} {dangling : Bool} (hkeyword : keyword.kind = .kwFor)
    (hlparen : lparen.kind = .leftParen) (hinit : Completes .forInit i ts init j)
    (hcondition : Completes .optional j us condition k) (hsemicolon : semicolon.kind = .semicolon)
    (hincrement : Completes .optional k vs increment l) (hrparen : rparen.kind = .rightParen)
    (hbody : Completes (.statement dangling) l ws body m)
    (hform : Stmt.ForForm init condition increment body s) :
    Completes (.statement dangling) i
      (keyword :: lparen :: ts ++ us ++ semicolon :: vs ++ rparen :: ws) s m := by
  obtain rfl := Stmt.forForm_iff.mp hform
  intro n rest eof errors hn hstop
  obtain ⟨n, rfl⟩ : ∃ n', n = n' + 2 := ⟨n - 2, by omega⟩
  simp only [List.length_append, List.length_cons] at hn
  have hread := hinit n (us ++ (semicolon :: vs ++ (rparen :: ws ++ rest))) eof errors (by omega)
  have hread₂ := hcondition n .semicolon semicolon (vs ++ (rparen :: ws ++ rest)) eof errors
    (by omega) hsemicolon (by decide) (by decide)
  have hread₃ := hincrement n .rightParen rparen (ws ++ rest) eof errors (by omega) hrparen
    (by decide) (by decide)
  have hread₄ := hbody n rest eof errors (by omega) hstop
  simp only [List.cons_append, List.append_assoc]
  rw [statement_eq (by simp [hkeyword, Kind.beginsStatement])]
  simp only [hkeyword]
  rw [Parser.forStatement]
  refine (bind_of_ok (expect_of_kind hlparen)).trans ?_
  refine (bind_of_ok hread).trans ?_
  refine (bind_of_ok hread₂).trans ?_
  refine (bind_of_ok (expect_of_kind hsemicolon)).trans ?_
  refine (bind_of_ok hread₃).trans ?_
  refine (bind_of_ok (expect_of_kind hrparen)).trans ?_
  exact bind_of_ok hread₄

theorem block {body : List Stmt} {lbrace rbrace : Token} (hlbrace : lbrace.kind = .leftBrace)
    (h : Completes .declarations i ts body j) (hrbrace : rbrace.kind = .rightBrace) :
    Completes (.statement false) i (lbrace :: ts ++ [rbrace]) (.block body) j := by
  intro n rest eof errors hn _
  obtain ⟨n, rfl⟩ : ∃ n', n = n' + 1 := ⟨n - 1, by omega⟩
  simp only [List.length_append, List.length_cons, List.length_nil] at hn
  simp only [List.cons_append, List.append_assoc, List.nil_append]
  rw [statement_eq (by simp [hlbrace, Kind.beginsStatement])]
  simp only [hlbrace]
  exact map_of_ok (h.2 n [] rbrace rest eof errors hrbrace (by omega))

/-! ### Declarations -/

theorem functionBare {name lparen rparen lbrace rbrace : Token} {body : List Stmt}
    (hname : name.kind = .identifier) (hlparen : lparen.kind = .leftParen)
    (hrparen : rparen.kind = .rightParen) (hlbrace : lbrace.kind = .leftBrace)
    (h : Completes .declarations i ts body j) (hrbrace : rbrace.kind = .rightBrace) :
    Completes .function i (name :: lparen :: rparen :: lbrace :: ts ++ [rbrace])
      (.mk name [] body) j := by
  intro n what rest eof errors hn
  obtain ⟨n, rfl⟩ : ∃ n', n = n' + 1 := ⟨n - 1, by omega⟩
  simp only [List.length_append, List.length_cons, List.length_nil] at hn
  have hbody := h.2 n [] rbrace rest eof errors hrbrace (by omega)
  simp only [List.cons_append, List.append_assoc, List.nil_append]
  rw [Parser.function]
  refine (bind_of_ok (expect_of_kind hname)).trans ?_
  refine (bind_of_ok (expect_of_kind hlparen)).trans ?_
  refine (bind_of_ok (unlessNext_of_kind hrparen)).trans ?_
  refine (bind_of_ok (expect_of_kind hrparen)).trans ?_
  refine (bind_of_ok (expect_of_kind hlbrace)).trans ?_
  exact bind_of_ok hbody

theorem function {name lparen rparen lbrace rbrace : Token} {ps : List Token} {body : List Stmt}
    (hname : name.kind = .identifier) (hlparen : lparen.kind = .leftParen)
    (hparams : Completes .parameters i us ps j) (hopens : Symbol.parameters.Opens us)
    (hmax : ps.length ≤ maxArity) (hrparen : rparen.kind = .rightParen)
    (hlbrace : lbrace.kind = .leftBrace) (h : Completes .declarations j ts body k)
    (hrbrace : rbrace.kind = .rightBrace) :
    Completes .function i (name :: lparen :: us ++ rparen :: lbrace :: ts ++ [rbrace])
      (.mk name ps body) k := by
  intro n what rest eof errors hn
  obtain ⟨n, rfl⟩ : ∃ n', n = n' + 1 := ⟨n - 1, by omega⟩
  simp only [List.length_append, List.length_cons, List.length_nil] at hn
  have hbody := h.2 n [] rbrace rest eof errors hrbrace (by omega)
  have hread := hparams n [] (rparen :: lbrace :: (ts ++ rbrace :: rest)) eof errors (by omega)
    (by simpa using hmax) (.cons (by simp [hrparen]) _)
  have hstop : Stops (· = .rightParen) (us ++ rparen :: lbrace :: (ts ++ rbrace :: rest)) := by
    refine hopens.stops rfl (fun kind hkind => ?_) _
    cases kind <;> first | rfl | cases hkind
  simp only [List.cons_append, List.append_assoc, List.nil_append]
  rw [Parser.function]
  refine (bind_of_ok (expect_of_kind hname)).trans ?_
  refine (bind_of_ok (expect_of_kind hlparen)).trans ?_
  refine (bind_of_ok ((unlessNext_of_stops hstop).trans hread)).trans ?_
  refine (bind_of_ok (expect_of_kind hrparen)).trans ?_
  refine (bind_of_ok (expect_of_kind hlbrace)).trans ?_
  exact bind_of_ok hbody

theorem noFunctions : Completes .functions i [] [] i := by
  intro n front rbrace rest eof errors hrbrace hn
  obtain ⟨n, rfl⟩ : ∃ n', n = n' + 1 := ⟨n - 1, by omega⟩
  rw [Parser.methods]
  refine (bind_of_ok (nextOrEnd_of_kind hrbrace)).trans ?_
  simp

theorem functions {d : FunctionDecl} {ds : List FunctionDecl} (h : Completes .function i ts d j)
    (hopens : Symbol.function.Opens ts) (hrest : Completes .functions j us ds k) :
    Completes .functions i (ts ++ us) (d :: ds) k := by
  intro n front rbrace rest eof errors hrbrace hn
  obtain ⟨n, rfl⟩ : ∃ n', n = n' + 1 := ⟨n - 1, by omega⟩
  have hpos := List.length_pos_iff.mpr (hopens.2 rfl)
  simp only [List.length_append] at hn
  have hstop : Stops (· = .rightBrace) (ts ++ (us ++ rbrace :: rest)) := by
    refine hopens.stops rfl (fun kind hkind => ?_) _
    cases kind <;> first | rfl | cases hkind
  have hread := h n .method (us ++ rbrace :: rest) eof errors (by omega)
  have hothers := hrest n (d :: front) rbrace rest eof errors hrbrace (by omega)
  rw [Parser.methods, List.append_assoc]
  refine (bind_of_ok (nextOrEnd_of_stops (by simp) hstop)).trans ?_
  refine (bind_of_ok hread).trans ?_
  simpa using hothers

/-- A declaration that begins with its keyword. -/
theorem declaration_eq {t : Token} {rest : List Token} {eof : Token} {errors : List SyntaxError}
    (hkind : t.kind.beginsDeclaration = true) (n : Nat) :
    Parser.declaration (n + 1) ⟨t :: rest, eof, i, errors⟩ =
      (match t.kind with
        | .kwClass => Parser.classDeclaration n
        | .kwFun => .function <$> Parser.function n .function
        | _ => varDeclaration n) ⟨rest, eof, i, errors⟩ := by
  rw [Parser.declaration]
  exact bind_of_ok (takeIf_of_accepts hkind)

theorem baseClass {keyword name lbrace rbrace : Token} {methods : List FunctionDecl}
    (hkeyword : keyword.kind = .kwClass) (hname : name.kind = .identifier)
    (hlbrace : lbrace.kind = .leftBrace) (h : Completes .functions i ts methods j)
    (hrbrace : rbrace.kind = .rightBrace) :
    Completes .declaration i (keyword :: name :: lbrace :: ts ++ [rbrace])
      (.classDecl name none methods) j := by
  intro n rest eof errors hn _
  obtain ⟨n, rfl⟩ : ∃ n', n = n' + 2 := ⟨n - 2, by omega⟩
  simp only [List.length_append, List.length_cons, List.length_nil] at hn
  have hread := h n [] rbrace rest eof errors hrbrace (by omega)
  have hnone : superclass ⟨lbrace :: (ts ++ rbrace :: rest), eof, i, errors⟩ =
      .ok none ⟨lbrace :: (ts ++ rbrace :: rest), eof, i, errors⟩ :=
    bind_of_ok (takeIf_of_stops (.cons (by simp [hlbrace]) _))
  simp only [List.cons_append, List.append_assoc, List.nil_append]
  rw [declaration_eq (by simp [hkeyword, Kind.beginsDeclaration])]
  simp only [hkeyword]
  rw [Parser.classDeclaration]
  refine (bind_of_ok (expect_of_kind hname)).trans ?_
  refine (bind_of_ok hnone).trans ?_
  refine (bind_of_ok (expect_of_kind hlbrace)).trans ?_
  refine (bind_of_ok hread).trans ?_
  exact bind_of_ok (expect_of_kind hrbrace)

theorem derivedClass {keyword name less parent lbrace rbrace : Token}
    {methods : List FunctionDecl} (hkeyword : keyword.kind = .kwClass)
    (hname : name.kind = .identifier) (hless : less.kind = .less)
    (hparent : parent.kind = .identifier) (hlbrace : lbrace.kind = .leftBrace)
    (h : Completes .functions (i + 1) ts methods j) (hrbrace : rbrace.kind = .rightBrace) :
    Completes .declaration i (keyword :: name :: less :: parent :: lbrace :: ts ++ [rbrace])
      (.classDecl name (some (.variable i parent)) methods) j := by
  intro n rest eof errors hn _
  obtain ⟨n, rfl⟩ : ∃ n', n = n' + 2 := ⟨n - 2, by omega⟩
  simp only [List.length_append, List.length_cons, List.length_nil] at hn
  have hread := h n [] rbrace rest eof errors hrbrace (by omega)
  have hsome : superclass ⟨less :: parent :: lbrace :: (ts ++ rbrace :: rest), eof, i, errors⟩ =
      .ok (some (.variable i parent)) ⟨lbrace :: (ts ++ rbrace :: rest), eof, i + 1, errors⟩ :=
    (bind_of_ok (takeIf_of_accepts (by simp [hless]))).trans (bind_of_ok (expect_of_kind hparent))
  simp only [List.cons_append, List.append_assoc, List.nil_append]
  rw [declaration_eq (by simp [hkeyword, Kind.beginsDeclaration])]
  simp only [hkeyword]
  rw [Parser.classDeclaration]
  refine (bind_of_ok (expect_of_kind hname)).trans ?_
  refine (bind_of_ok hsome).trans ?_
  refine (bind_of_ok (expect_of_kind hlbrace)).trans ?_
  refine (bind_of_ok hread).trans ?_
  exact bind_of_ok (expect_of_kind hrbrace)

theorem funDecl {keyword : Token} {d : FunctionDecl} (hkeyword : keyword.kind = .kwFun)
    (h : Completes .function i ts d j) :
    Completes .declaration i (keyword :: ts) (.function d) j := by
  intro n rest eof errors hn _
  obtain ⟨n, rfl⟩ : ∃ n', n = n' + 1 := ⟨n - 1, by omega⟩
  simp only [List.length_cons] at hn
  rw [List.cons_append, declaration_eq (by simp [hkeyword, Kind.beginsDeclaration])]
  simp only [hkeyword]
  exact map_of_ok (h n .function rest eof errors (by omega))

theorem varDecl {s : Stmt} (h : Completes .varDecl i ts s j) (hopens : Symbol.varDecl.Opens ts) :
    Completes .declaration i ts s j := by
  intro n rest eof errors hn _
  obtain ⟨n, rfl⟩ : ∃ n', n = n' + 1 := ⟨n - 1, by omega⟩
  cases ts with
  | nil => exact absurd rfl (hopens.2 rfl)
  | cons keyword ts =>
      have hkind : keyword.kind = .kwVar := by simpa [Symbol.begins] using hopens.1 keyword rfl
      rw [List.cons_append, declaration_eq (by simp [hkind, Kind.beginsDeclaration])]
      simp only [hkind]
      exact h n rest eof errors (by omega)

theorem statement {s : Stmt} {dangling : Bool} (h : Completes (.statement dangling) i ts s j)
    (hopens : (Symbol.statement dangling).Opens ts) : Completes .declaration i ts s j := by
  intro n rest eof errors hn hstop
  obtain ⟨n, rfl⟩ : ∃ n', n = n' + 1 := ⟨n - 1, by omega⟩
  have hnone : Stops Kind.beginsDeclaration (ts ++ rest) := by
    refine hopens.stops rfl (fun kind hkind => ?_) rest
    cases kind <;> first | rfl | cases hkind
  rw [Parser.declaration]
  refine (bind_of_ok (takeIf_of_stops hnone)).trans ?_
  exact h n rest eof errors (by omega) fun _ => hstop

theorem noDeclarations : Completes .declarations i [] [] i := by
  refine ⟨?_, ?_⟩
  · intro n front eof hn
    obtain ⟨n, rfl⟩ : ∃ n', n = n' + 1 := ⟨n - 1, by omega⟩
    rw [Parser.program]
    refine (bind_of_ok rfl).trans ?_
    simp
  · intro n front rbrace rest eof errors hrbrace hn
    obtain ⟨n, rfl⟩ : ∃ n', n = n' + 1 := ⟨n - 1, by omega⟩
    rw [Parser.block]
    refine (bind_of_ok (nextOrEnd_of_kind hrbrace)).trans ?_
    refine (bind_of_ok (expect_of_kind hrbrace)).trans ?_
    simp

theorem declarations {s : Stmt} {ss : List Stmt} (h : Completes .declaration i ts s j)
    (hopens : Symbol.declaration.Opens ts) (hrest : Completes .declarations j us ss k)
    (hnext : Symbol.declarations.Opens us) :
    Completes .declarations i (ts ++ us) (s :: ss) k := by
  have hpos := List.length_pos_iff.mpr (hopens.2 rfl)
  have hnoElse : Stops (· = .kwElse) us := by
    intro t ht
    have hkind := hnext.1 t ht
    revert hkind
    cases t.kind <;> first | exact fun _ => rfl | exact fun hkind => nomatch hkind
  refine ⟨?_, ?_⟩
  · intro n front eof hn
    obtain ⟨n, rfl⟩ : ∃ n', n = n' + 1 := ⟨n - 1, by omega⟩
    simp only [List.length_append] at hn
    have hread := h n us eof [] (by omega) hnoElse
    have hothers := hrest.1 n (s :: front) eof (by omega)
    have hend : atEnd ⟨ts ++ us, eof, i, []⟩ = .ok false ⟨ts ++ us, eof, i, []⟩ := by
      simp [atEnd, hopens.2 rfl]
    rw [Parser.program]
    refine (bind_of_ok hend).trans ?_
    refine (bind_of_ok (recover_of_ok hread)).trans ?_
    simpa using hothers
  · intro n front rbrace rest eof errors hrbrace hn
    obtain ⟨n, rfl⟩ : ∃ n', n = n' + 1 := ⟨n - 1, by omega⟩
    simp only [List.length_append] at hn
    have hnoElse' : Stops (· = .kwElse) (us ++ rbrace :: rest) := by
      cases us with
      | nil => exact .cons (by simp [hrbrace]) rest
      | cons t us => exact hnoElse
    have hstop : Stops (· = .rightBrace) (ts ++ (us ++ rbrace :: rest)) := by
      refine hopens.stops rfl (fun kind hkind => ?_) _
      cases kind <;> first | rfl | cases hkind
    have hread := h n (us ++ rbrace :: rest) eof errors (by omega) hnoElse'
    have hothers := hrest.2 n (s :: front) rbrace rest eof errors hrbrace (by omega)
    rw [Parser.block, List.append_assoc]
    refine (bind_of_ok (nextOrEnd_of_stops (by simp) hstop)).trans ?_
    refine (bind_of_ok (recover_of_ok hread)).trans ?_
    simpa using hothers

end Statements

end Completes

/-- Every phrase is read in full. -/
theorem completes {x : Symbol} {i j : ExprId} {ts : List Token} {a : x.Tree}
    (h : Derives x i ts a j) : Completes x i ts a j := by
  induction h with
  | noDeclarations => exact .noDeclarations
  | declarations hs hss ih ihs => exact ih.declarations hs.opens ihs hss.opens
  | baseClass hkeyword hname hlbrace _ hrbrace ih =>
      exact ih.baseClass hkeyword hname hlbrace hrbrace
  | derivedClass hkeyword hname hless hparent hlbrace _ hrbrace ih =>
      exact ih.derivedClass hkeyword hname hless hparent hlbrace hrbrace
  | funDecl hkeyword _ ih => exact ih.funDecl hkeyword
  | varDecl h ih => exact ih.varDecl h.opens
  | statement _ h ih => exact ih.statement h.opens
  | varBare _ hname hsemicolon => exact .varBare hname hsemicolon
  | varInit _ hname hequal _ hsemicolon ih => exact .varInit hname hequal ih hsemicolon
  | noFunctions => exact .noFunctions
  | functions hd _ ih ihs => exact ih.functions hd.opens ihs
  | functionBare hname hlparen hrparen hlbrace _ hrbrace ih =>
      exact .functionBare hname hlparen hrparen hlbrace ih hrbrace
  | function hname hlparen hps hmax hrparen hlbrace _ hrbrace ihps ih =>
      exact .function hname hlparen ihps hps.opens hmax hrparen hlbrace ih hrbrace
  | parameter hname => exact .parameter hname
  | parameters hname hcomma _ ih => exact .parameters hname hcomma ih
  | exprStatement h ih => exact ih.exprStatement h.opens
  | forStatement hkeyword hlparen _ _ hsemicolon _ hrparen _ hform ih ih₂ ih₃ ih₄ =>
      exact .forStatement hkeyword hlparen ih ih₂ hsemicolon ih₃ hrparen ih₄ hform
  | ifThen dangling hkeyword hlparen _ hrparen _ ih ih₂ =>
      exact .ifThen dangling hkeyword hlparen ih hrparen ih₂
  | ifElse hkeyword hlparen _ hrparen _ hotherwise _ ih ih₂ ih₃ =>
      exact .ifElse hkeyword hlparen ih hrparen ih₂ hotherwise ih₃
  | print hkeyword _ hsemicolon ih => exact .print hkeyword ih hsemicolon
  | ret hkeyword _ hsemicolon ih => exact .ret hkeyword ih hsemicolon
  | whileStatement hkeyword hlparen _ hrparen _ ih ih₂ =>
      exact .whileStatement hkeyword hlparen ih hrparen ih₂
  | block hlbrace _ hrbrace ih => exact .block hlbrace ih hrbrace
  | exprStmt _ hsemicolon ih => exact .exprStmt ih hsemicolon
  | forVar h ih => exact .forVar ih h.opens
  | forExpr h ih => exact .forExpr ih h.opens
  | forNone hsemicolon => exact .forNone hsemicolon
  | absent => exact .absent
  | present h ih => exact .present ih h.opens
  | assign hname hequal _ ih => exact .assign hname hequal ih
  | set _ hdot hname hequal _ ih ih₂ =>
      exact .set ((ih.get hdot hname).operation_of_call _) hequal ih₂
  | operation _ ih => exact .operation ih
  | operand _ ih => exact .operand ih
  | tighter _ ih => exact .tighter ih
  | join _ _ hjoins ih ih₂ => exact .join ih ih₂ hjoins
  | unary hkind _ ih => exact .unary hkind ih
  | call _ ih => exact .call ih
  | callee h ih => exact .callee ih h.opens
  | callBare _ hlparen hrparen ih => exact .callBare ih hlparen hrparen
  | callWith _ hlparen hargs hmax hrparen ih ih₂ =>
      exact .callWith ih hlparen ih₂ hargs.opens hmax hrparen
  | get _ hdot hname ih => exact .get ih hdot hname
  | argument _ ih => exact .argument ih
  | arguments _ hcomma _ ih ih₂ => exact .arguments ih hcomma ih₂
  | number hkind | string hkind | trueWord hkind | falseWord hkind | nilWord hkind =>
      exact .primary_of_token fun n rest eof errors => by
        simp [Parser.primary, bind_apply, takeIf, Kind.isPrimary, hkind]
  | this hkind => exact .this hkind
  | reference hkind => exact .reference hkind
  | grouping hlparen _ hrparen ih => exact .grouping hlparen ih hrparen
  | super hkeyword hdot hmethod => exact .super hkeyword hdot hmethod

end Parser

end ScriptLang
