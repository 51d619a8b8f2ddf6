import ScriptLang.Proofs.Reading.Merging
import ScriptLang.Proofs.Reading.Semicolons

/-! Plain statements: how they are read with their semicolon, with an expression that goes on with
them, and before a token that does not. -/

namespace ScriptLang

/-! ### Steps of a parser that fail -/

namespace Parser

section Steps

variable {rest : List Token} {eof : Token} {i : ExprId} {errors : List SyntaxError}

theorem bind_of_fail {α β : Type} {p : Parser α} {f : α → Parser β} {c d : Cursor}
    {e : SyntaxError} (h : p c = .fail e d) : (p >>= f) c = .fail e d := by
  rw [bind_apply, h]

theorem expect_of_stops {kind : Kind} {cause : SyntaxCause} (h : Stops (· = kind) rest) :
    expect kind cause ⟨rest, eof, i, errors⟩ =
      .fail ⟨rest.headD eof, cause⟩ ⟨rest, eof, i, errors⟩ := by
  cases rest with
  | nil => rfl
  | cons t rest =>
      have ht : t.kind ≠ kind := by simpa using h t rfl
      simp [expect, ht]

/-- Where no expression begins none is read. -/
theorem operation_of_stops (h : Stops Kind.beginsExpression rest) (levels : List Level) (n : Nat)
    (hn : levels.length + 3 ≤ n) : operation n levels ⟨rest, eof, i, errors⟩ =
      .fail ⟨rest.headD eof, .noExpression⟩ ⟨rest, eof, i, errors⟩ := by
  induction levels generalizing n with
  | nil =>
      obtain ⟨n, rfl⟩ : ∃ n', n = n' + 3 := ⟨n - 3, by simp only [List.length_nil] at hn; omega⟩
      have hunary : Stops Kind.isUnary rest :=
        h.imp (by simp +contextual [Kind.beginsExpression])
      have hprimary : Stops Kind.isPrimary rest :=
        h.imp (by simp +contextual [Kind.beginsExpression])
      rw [operation, unary]
      refine (bind_of_ok (takeIf_of_stops hunary)).trans (bind_of_fail ?_)
      rw [primary]
      exact bind_of_ok (takeIf_of_stops hprimary)
  | cons level levels ih =>
      obtain ⟨n, rfl⟩ : ∃ n', n = n' + 1 := ⟨n - 1, by omega⟩
      rw [operation]
      exact bind_of_fail (ih n (by simp only [List.length_cons] at hn; omega))

theorem expression_of_stops (h : Stops Kind.beginsExpression rest) (n : Nat) (hn : 10 ≤ n) :
    expression n ⟨rest, eof, i, errors⟩ =
      .fail ⟨rest.headD eof, .noExpression⟩ ⟨rest, eof, i, errors⟩ := by
  obtain ⟨n, rfl⟩ : ∃ n', n = n' + 1 := ⟨n - 1, by omega⟩
  have hlevels : Level.all.length = 6 := rfl
  rw [expression]
  exact bind_of_fail (operation_of_stops h Level.all n (by omega))

end Steps

/-! ### Values and semicolons -/

/-- Reads a declaration, or only a statement. -/
def plain : Bool → Nat → Parser Stmt
  | true => declaration
  | false => statement

section Heads

variable {n : Nat} {rest : List Token} {eof : Token} {i : ExprId} {errors : List SyntaxError}

theorem plain_print {keyword : Token} (hkeyword : keyword.kind = .kwPrint) :
    plain false (n + 1) ⟨keyword :: rest, eof, i, errors⟩ =
      printStatement n ⟨rest, eof, i, errors⟩ := by
  rw [plain, Completes.statement_eq (by simp [hkeyword, Kind.beginsStatement])]
  simp only [hkeyword]

theorem plain_return {keyword : Token} (hkeyword : keyword.kind = .kwReturn) :
    plain false (n + 1) ⟨keyword :: rest, eof, i, errors⟩ =
      returnStatement n keyword ⟨rest, eof, i, errors⟩ := by
  rw [plain, Completes.statement_eq (by simp [hkeyword, Kind.beginsStatement])]
  simp only [hkeyword]

/-- After the name of a variable comes its value and then a semicolon. -/
theorem plain_var {keyword name : Token} (hkeyword : keyword.kind = .kwVar)
    (hname : name.kind = .identifier) :
    plain true (n + 1) ⟨keyword :: name :: rest, eof, i, errors⟩ = (do
      let value ← initializer n
      let _ ← expect .semicolon .noSemicolonAfterVariable
      pure (Stmt.var name value)) ⟨rest, eof, i, errors⟩ := by
  rw [plain, Completes.declaration_eq (by simp [hkeyword, Kind.beginsDeclaration])]
  simp only [hkeyword]
  exact bind_of_ok (expect_of_kind hname)

end Heads

end Parser

/-- After the tokens before its value, the value and a semicolon of a plain statement are read. -/
theorem Head.plain_eq {declares : Bool} {head : List Token} {cause : SyntaxCause}
    (h : Head declares head cause) : ∃ f : Expr → Stmt, ∀ n rest eof i errors,
      Symbol.expression.Opens rest → Parser.plain declares (n + 1) ⟨head ++ rest, eof, i, errors⟩ =
        (do
          let e ← Parser.expression n
          let _ ← Parser.expect .semicolon cause
          pure (f e)) ⟨rest, eof, i, errors⟩ := by
  cases h with
  | @initializer keyword name equal hkeyword hname hequal =>
      refine ⟨fun e => .var name (some e), fun n rest eof i errors _ => ?_⟩
      have hvalue : Parser.initializer n ⟨equal :: rest, eof, i, errors⟩ =
          (some <$> Parser.expression n) ⟨rest, eof, i, errors⟩ :=
        Parser.bind_of_ok (Parser.takeIf_of_accepts (by simp [hequal]))
      simp only [List.cons_append, List.nil_append]
      rw [Parser.plain_var hkeyword hname, Parser.bind_eq_andThen, hvalue, ← Parser.bind_eq_andThen,
        map_eq_pure_bind, bind_assoc]
      rfl
  | expression =>
      refine ⟨.expression, fun n rest eof i errors hopens => ?_⟩
      have hstop : Stops Kind.beginsStatement rest := by
        refine hopens.stops_self rfl fun kind hkind => ?_
        cases kind <;> first | rfl | cases hkind
      rw [Parser.plain, Parser.statement]
      exact Parser.bind_of_ok (Parser.takeIf_of_stops hstop)
  | @print keyword hkeyword =>
      refine ⟨.print, fun n rest eof i errors _ => ?_⟩
      exact Parser.plain_print hkeyword
  | @ret keyword hkeyword =>
      refine ⟨fun e => .ret keyword (some e), fun n rest eof i errors hopens => ?_⟩
      have hstop : Stops (· = .semicolon) rest := by
        refine hopens.stops_self rfl fun kind hkind => ?_
        cases kind <;> first | rfl | cases hkind
      have hvalue : Parser.expressionUnless n .semicolon ⟨rest, eof, i, errors⟩ =
          (some <$> Parser.expression n) ⟨rest, eof, i, errors⟩ :=
        Parser.unlessNext_of_stops hstop
      rw [List.singleton_append, Parser.plain_return hkeyword, Parser.returnStatement,
        Parser.bind_eq_andThen, hvalue, ← Parser.bind_eq_andThen,
        map_eq_pure_bind, bind_assoc]
      rfl

/-- The tokens `ts` and a semicolon are read as a plain statement, with the ids from `i` up to `j`,
and `es` noted. -/
def Parser.PlainReads (declares : Bool) (i : ExprId) (ts : List Token) (j : ExprId)
    (es : List SyntaxError) : Prop :=
  ∃ s, ∀ n semicolon rest eof errors, semicolon.kind = .semicolon → 16 * ts.length + 11 ≤ n →
    plain declares n ⟨ts ++ semicolon :: rest, eof, i, errors⟩ = .ok s ⟨rest, eof, j, es ++ errors⟩

theorem Head.plainReads {declares : Bool} {head ts : List Token} {cause : SyntaxCause}
    {i j : ExprId} {es : List SyntaxError} (h : Head declares head cause)
    (hvalue : Parser.ExpressionReads i ts j es) (hopens : Symbol.expression.Opens ts) :
    Parser.PlainReads declares i (head ++ ts) j es := by
  obtain ⟨f, hf⟩ := h.plain_eq
  obtain ⟨e, he⟩ := hvalue
  refine ⟨f e, fun n semicolon rest eof errors hsemicolon hn => ?_⟩
  obtain ⟨n, rfl⟩ : ∃ n', n = n' + 1 := ⟨n - 1, by omega⟩
  simp only [List.length_append] at hn
  rw [List.append_assoc, hf _ _ _ _ _ (hopens.append rfl (fun _ => id) _)]
  refine (Parser.bind_of_ok (he n _ eof errors (by omega) ?_)).trans ?_
  · exact .cons (by rw [hsemicolon]; decide) rest
  · exact Parser.bind_of_ok (Parser.expect_of_kind hsemicolon)

namespace Plain

variable {declares : Bool} {i j k : ExprId} {ts us : List Token} {cause : SyntaxCause}
  {goes : Kind → Bool}

theorem opens_statement (h : Plain false i ts j cause goes) :
    (Symbol.statement false).Opens ts := by
  cases h with
  | bareReturn hkeyword =>
      exact .of_begins (by simp [Symbol.begins, Kind.beginsStatement, hkeyword]) _
  | value hhead hvalue =>
      cases hhead with
      | expression => exact hvalue.opens.imp rfl (by simp +contextual [Symbol.begins])
      | print hkeyword | ret hkeyword =>
          exact .of_begins (by simp [Symbol.begins, Kind.beginsStatement, hkeyword]) _

theorem opens (h : Plain declares i ts j cause goes) : Symbol.declaration.Opens ts := by
  cases declares with
  | false => exact h.opens_statement.declaration
  | true =>
      cases h with
      | bareVar hkeyword =>
          exact .of_begins (by simp [Symbol.begins, Kind.beginsDeclaration, hkeyword]) _
      | value hhead =>
          cases hhead with
          | initializer hkeyword =>
              exact .of_begins (by simp [Symbol.begins, Kind.beginsDeclaration, hkeyword]) _

/-- With its semicolon it is read. -/
theorem reads (h : Plain declares i ts j cause goes) : Parser.PlainReads declares i ts j [] := by
  cases h with
  | @bareVar _ keyword name hkeyword hname =>
      refine ⟨.var name none, fun n semicolon rest eof errors hsemicolon hn => ?_⟩
      obtain ⟨n, rfl⟩ : ∃ n', n = n' + 1 := ⟨n - 1, by omega⟩
      have hnone : Parser.initializer n ⟨semicolon :: rest, eof, i, errors⟩ =
          .ok none ⟨semicolon :: rest, eof, i, errors⟩ :=
        Parser.bind_of_ok (Parser.takeIf_of_stops (.cons (by simp [hsemicolon]) _))
      simp only [List.cons_append, List.nil_append]
      rw [Parser.plain_var hkeyword hname, Parser.bind_of_ok hnone]
      exact Parser.bind_of_ok (Parser.expect_of_kind hsemicolon)
  | @bareReturn _ keyword hkeyword =>
      refine ⟨.ret keyword none, fun n semicolon rest eof errors hsemicolon hn => ?_⟩
      obtain ⟨n, rfl⟩ : ∃ n', n = n' + 1 := ⟨n - 1, by omega⟩
      rw [List.singleton_append, Parser.plain_return hkeyword]
      refine (Parser.bind_of_ok (Parser.unlessNext_of_kind hsemicolon)).trans ?_
      exact Parser.bind_of_ok (Parser.expect_of_kind hsemicolon)
  | value hhead hvalue => exact hhead.plainReads (.of_derives hvalue) hvalue.opens

/-- Before an expression whose first token goes on with it, both are read as one. -/
theorem reads_append (h : Plain declares i ts j cause goes) {e : Expr}
    (hlast : Derives .expression j us e k) (hgoes : ∀ t ∈ us.head?, goes t.kind = true) :
    ∃ es, es.length ≤ 1 ∧ Parser.PlainReads declares i (ts ++ us) k es := by
  cases h with
  | bareVar =>
      have hopens := hlast.opens
      cases us with
      | nil => exact absurd rfl (hopens.2 rfl)
      | cons t us =>
          have hequal : t.kind = .equal := by simpa using hgoes t rfl
          have hbegins := hopens.1 t rfl
          rw [hequal] at hbegins
          cases hbegins
  | bareReturn hkeyword =>
      exact ⟨[], by decide, (Head.ret hkeyword).plainReads (.of_derives hlast) hlast.opens⟩
  | value hhead hvalue =>
      obtain ⟨es, hlength, hreads⟩ := Parser.expressionReads_append hvalue rfl hlast hgoes
      refine ⟨es, hlength, ?_⟩
      rw [List.append_assoc]
      exact hhead.plainReads hreads (hvalue.opens.append rfl (fun _ => id) us)

/-- Before any other token but a semicolon it fails. -/
theorem fails (h : Plain declares i ts j cause goes) {rest : List Token} (hstop : Stops goes rest)
    (hsemicolon : Stops (· = .semicolon) rest) {n : Nat} (hn : 16 * ts.length + 11 ≤ n)
    (eof : Token) (errors : List SyntaxError) :
    Parser.plain declares n ⟨ts ++ rest, eof, i, errors⟩ =
      .fail ⟨rest.headD eof, cause⟩ ⟨rest, eof, j, errors⟩ := by
  obtain ⟨n, rfl⟩ : ∃ n', n = n' + 1 := ⟨n - 1, by omega⟩
  cases h with
  | @bareVar _ keyword name hkeyword hname =>
      have hnone : Parser.initializer n ⟨rest, eof, i, errors⟩ =
          .ok none ⟨rest, eof, i, errors⟩ :=
        Parser.bind_of_ok (Parser.takeIf_of_stops hstop)
      simp only [List.cons_append, List.nil_append]
      rw [Parser.plain_var hkeyword hname, Parser.bind_of_ok hnone]
      exact Parser.bind_of_fail (Parser.expect_of_stops hsemicolon)
  | @bareReturn _ keyword hkeyword =>
      simp only [List.length_singleton] at hn
      rw [List.singleton_append, Parser.plain_return hkeyword]
      refine Parser.bind_of_fail ((Parser.unlessNext_of_stops hsemicolon).trans ?_)
      rw [map_eq_pure_bind]
      exact Parser.bind_of_fail (Parser.expression_of_stops hstop n (by omega))
  | value hhead hvalue =>
      obtain ⟨f, hf⟩ := hhead.plain_eq
      simp only [List.length_append] at hn
      rw [List.append_assoc, hf _ _ _ _ _ (hvalue.opens.append rfl (fun _ => id) rest)]
      have hread := Parser.completes hvalue n rest eof errors (by omega) hstop
      refine (Parser.bind_of_ok hread).trans ?_
      exact Parser.bind_of_fail (Parser.expect_of_stops hsemicolon)

/-- Only its first token begins a statement. -/
theorem exists_cons (h : Plain declares i ts j cause goes) : ∃ t us, ts = t :: us ∧
    t.kind ≠ .semicolon ∧ ∀ t ∈ us, t.kind.isBoundary = false := by
  cases h with
  | bareVar hkeyword hname =>
      exact ⟨_, _, rfl, by simp [hkeyword], by simp [hname, Kind.isBoundary]⟩
  | bareReturn hkeyword => exact ⟨_, [], rfl, by simp [hkeyword], by simp⟩
  | @value _ _ _ _ us _ _ hhead hvalue =>
      have hplain := hvalue.isBoundary_eq_false rfl
      cases hhead with
      | initializer hkeyword hname hequal =>
          refine ⟨_, _, rfl, by simp [hkeyword], ?_⟩
          simpa [hname, hequal, Kind.isBoundary] using hplain
      | expression =>
          cases us with
          | nil => exact absurd rfl (hvalue.opens.2 rfl)
          | cons t us =>
              obtain ⟨-, hus⟩ := List.forall_mem_cons.mp hplain
              exact ⟨t, us, rfl, hvalue.ne_semicolon rfl t (by simp), hus⟩
      | print hkeyword | ret hkeyword => exact ⟨_, _, rfl, by simp [hkeyword], hplain⟩

end Plain

theorem Parser.andThen_pure {α : Type} (r : Reply α) : andThen pure r = r := by
  cases r <;> rfl

/-- A plain statement is read inside those that it ends. -/
theorem Ahead.declaration_eq {declares : Bool} {i j : ExprId} {ts : List Token}
    (h : Ahead declares i ts j) {n : Nat} (hn : 16 * ts.length + 12 ≤ n) :
    ∃ m g, n ≤ m + ts.length + 1 ∧ Wrapping g ∧
      ∀ {us k cause goes}, Plain declares j us k cause goes → ∀ rest eof errors,
        Parser.declaration n ⟨ts ++ us ++ rest, eof, i, errors⟩ =
          Parser.andThen g (Parser.plain declares m ⟨us ++ rest, eof, j, errors⟩) := by
  cases h with
  | declaration =>
      refine ⟨n, pure, by omega, .of_pure id, fun _ rest eof errors => ?_⟩
      rw [Parser.andThen_pure]
      rfl
  | statement hleading =>
      obtain ⟨n, rfl⟩ : ∃ n', n = n' + 1 := ⟨n - 1, by omega⟩
      obtain ⟨m, g, hm, hg, hread⟩ := hleading.statement_eq (n := n) (by omega)
      refine ⟨m, g, by omega, hg, fun {us} _ _ _ hplain rest eof errors => ?_⟩
      have hopens := hleading.opens (hplain.opens_statement.append rfl (fun _ => id) rest)
      rw [List.append_assoc, Parser.declaration_eq_statement hopens]
      exact hread (us ++ rest) eof errors

end ScriptLang
