import ScriptLang.Proofs.Grammar.Expressions

/-! The tokens that begin the phrases of each symbol, and those that would go on with one. One
token is enough to tell which rule applies. -/

namespace ScriptLang

/-- The kinds that begin an expression. -/
def Kind.beginsExpression (kind : Kind) : Bool := kind.isPrimary || kind.isUnary

/-- The kinds that go on with an operation of these levels. -/
def Kind.extendsOperation (levels : List Level) (kind : Kind) : Bool :=
  kind.isCallSuffix || levels.any (·.accepts kind)

/-- The kinds that go on with an expression. -/
def Kind.extendsExpression (kind : Kind) : Bool :=
  kind = .equal || kind.extendsOperation Level.all

/-! ### Levels -/

theorem Level.eq_of_accepts {level level' : Level} {kind : Kind} (h : level.accepts kind = true)
    (h' : level'.accepts kind = true) : level = level' := by
  unfold Level.accepts at h
  split at h <;> cases level' <;> first | rfl | cases h' | cases h

theorem Level.isCallSuffix_of_accepts {level : Level} {kind : Kind}
    (h : level.accepts kind = true) : kind.isCallSuffix = false := by
  unfold Level.accepts at h
  split at h <;> first | rfl | cases h

/-- An operator of a level does not go on with an operation of tighter levels. -/
theorem Level.stops_of_accepts {level : Level} {levels : List Level} {kind : Kind}
    (hlevels : level :: levels <:+ Level.all) (h : level.accepts kind = true) :
    kind.extendsOperation levels = false := by
  have hnodup : (level :: levels).Nodup := hlevels.sublist.nodup (by decide)
  simp only [Kind.extendsOperation, isCallSuffix_of_accepts h, Bool.false_or,
    List.any_eq_false]
  intro level' hmem haccepts
  exact (List.nodup_cons.mp hnodup).1 (eq_of_accepts h haccepts ▸ hmem)

/-! ### First tokens -/

/-- The kinds that begin the phrases of a symbol. -/
def Symbol.begins : Symbol → Kind → Bool
  | .declarations, kind => kind.beginsDeclaration || kind.beginsStatement || kind.beginsExpression
  | .declaration, kind => kind.beginsDeclaration || kind.beginsStatement || kind.beginsExpression
  | .varDecl, kind => kind = .kwVar
  | .functions, kind => kind = .identifier
  | .function, kind => kind = .identifier
  | .parameters, kind => kind = .identifier
  | .statement _, kind => kind.beginsStatement || kind.beginsExpression
  | .exprStmt, kind => kind.beginsExpression
  | .forInit, kind => kind = .semicolon || kind = .kwVar || kind.beginsExpression
  | .optional, kind => kind.beginsExpression
  | .expression, kind => kind.beginsExpression
  | .operation _, kind => kind.beginsExpression
  | .unary, kind => kind.beginsExpression
  | .call, kind => kind.isPrimary
  | .arguments, kind => kind.beginsExpression
  | .primary, kind => kind.isPrimary

/-- Tokens whose first, if there is one, is of a kind that begins the symbol. -/
def Symbol.Begins (x : Symbol) (ts : List Token) : Prop :=
  ∀ t ∈ ts.head?, x.begins t.kind = true

/-- Tokens that begin as a phrase of `x` does, and are not empty if no such phrase is. -/
def Symbol.Opens (x : Symbol) (ts : List Token) : Prop :=
  x.Begins ts ∧ (x.nonempty = true → ts ≠ [])

/-- What follows a phrase does not change how it begins. -/
theorem Symbol.Opens.append {x y : Symbol} {ts : List Token} (h : x.Opens ts)
    (hx : x.nonempty = true) (hxy : ∀ kind, x.begins kind = true → y.begins kind = true)
    (us : List Token) : y.Opens (ts ++ us) := by
  cases ts with
  | nil => exact absurd rfl (h.2 hx)
  | cons t ts => exact ⟨by simpa [Symbol.Begins] using hxy t.kind (h.1 t rfl), by simp⟩

theorem Symbol.Opens.imp {x y : Symbol} {ts : List Token} (h : x.Opens ts)
    (hx : x.nonempty = true) (hxy : ∀ kind, x.begins kind = true → y.begins kind = true) :
    y.Opens ts := by
  simpa using h.append hx hxy []

theorem Symbol.Opens.of_begins {x : Symbol} {t : Token} (h : x.begins t.kind = true)
    (ts : List Token) : x.Opens (t :: ts) :=
  ⟨by simpa [Symbol.Begins] using h, by simp⟩

/-- The first token of a phrase is of a kind that begins its symbol, and only lists and optional
phrases may be empty. -/
theorem Derives.opens {x : Symbol} {i j : ExprId} {ts : List Token} {a : x.Tree}
    (h : Derives x i ts a j) : x.Opens ts := by
  induction h with
  | noDeclarations | noFunctions | absent =>
      simp [Symbol.Opens, Symbol.Begins, Symbol.nonempty]
  | declarations _ _ ih => exact ih.append (y := .declarations) rfl (fun _ => id) _
  | functions _ _ ih => exact ih.append (y := .functions) rfl (fun _ => id) _
  | arguments _ _ _ ih => exact ih.append (y := .arguments) rfl (fun _ => id) _
  | exprStmt _ _ ih => exact ih.append (y := .exprStmt) rfl (fun _ => id) _
  | join _ _ _ ih | callBare _ _ _ ih | get _ _ _ ih => exact ih.append rfl (fun _ => id) _
  | callWith _ _ _ _ _ ih =>
      rw [List.append_assoc]
      exact ih.append rfl (fun _ => id) _
  | set _ _ _ _ _ ih =>
      exact ih.append rfl (by simp +contextual [Symbol.begins, Kind.beginsExpression]) _
  | present _ ih | operation _ ih | operand _ ih | tighter _ ih | callee _ ih | argument _ ih =>
      exact ih.imp rfl fun _ => id
  | call _ ih => exact ih.imp rfl (by simp +contextual [Symbol.begins, Kind.beginsExpression])
  | exprStatement _ ih | forExpr _ ih | statement _ _ ih =>
      exact ih.imp rfl (by simp +contextual [Symbol.begins, or_assoc])
  | varDecl _ ih | forVar _ ih =>
      exact ih.imp rfl (by simp +contextual [Symbol.begins, Kind.beginsDeclaration])
  | unary hkind =>
      apply Symbol.Opens.of_begins
      rcases hkind with hkind | hkind <;>
        simp [Symbol.begins, Kind.beginsExpression, Kind.isUnary, hkind]
  | _ =>
      apply Symbol.Opens.of_begins
      simp_all [Symbol.begins, Kind.beginsDeclaration, Kind.beginsStatement,
        Kind.beginsExpression, Kind.isPrimary]

end ScriptLang
