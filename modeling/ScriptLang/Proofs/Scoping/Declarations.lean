import ScriptLang.Proofs.Scoping.Shape

/-! Declarations. A scope declares each of its names once, and a name that is still being declared
is found only in the initializer of its own variable. -/

namespace ScriptLang

/-! ### A scope declares a name once -/

namespace Point

variable {setting : Setting} {scope : Scope} {outer : List Scope} {sites : List Site}

theorem contains_of_declare {name : Token} {w : ScopeWalk} (hw : w.scopes = scope :: outer)
    (h : (w.declare name).errors = []) : scope.contains name.lexeme = false := by
  cases hcontains : scope.contains name.lexeme with
  | false => rfl
  | true => simp [ScopeWalk.declare, hw, hcontains, ScopeWalk.error] at h

/-- The scope does not have the name yet that an accepted statement declares in it. -/
theorem accepted_declares {s : Stmt} (h : Accepted ⟨.stmt s, setting, scope :: outer, sites⟩)
    {name : Token} (hname : s.declares = some name) : scope.contains name.lexeme = false := by
  obtain ⟨hwf, herrors⟩ := h
  rw [found_stmt] at herrors
  cases s with
  | var t initializer =>
      obtain rfl : t = name := Option.some.inj hname
      refine contains_of_declare (w := .within (scope :: outer)) rfl ?_
      cases initializer with
      | none => simpa [Stmt.resolve, Expr.resolve?] using herrors
      | some e =>
          rw [Stmt.resolve, Expr.resolve?, e.resolve_eq, ScopeWalk.define_errors,
            ScopeWalk.onto_errors] at herrors
          exact (List.append_eq_nil_iff.mp herrors).2
  | function d =>
      obtain rfl : d.name = name := Option.some.inj hname
      refine contains_of_declare (w := .within (scope :: outer)) rfl ?_
      rw [Stmt.resolve, d.resolve_eq, ScopeWalk.onto_errors, ScopeWalk.declareComplete,
        ScopeWalk.define_errors] at herrors
      exact (List.append_eq_nil_iff.mp herrors).2
  | classDecl t superclass methods =>
      obtain rfl : t = name := Option.some.inj hname
      refine contains_of_declare (w := .within (scope :: outer)) rfl ?_
      cases superclass with
      | none =>
          simp only [Stmt.resolve, FunctionDecl.resolveMethods_eq _ _ methods,
            ScopeWalk.closeScope_errors, ScopeWalk.define_errors, ScopeWalk.openScope_errors,
            ScopeWalk.declareComplete] at herrors
          exact (List.append_eq_nil_iff.mp herrors).2
      | some superclass =>
          obtain ⟨id, parent, rfl⟩ := hwf.2.1 superclass rfl
          simp only [Stmt.resolve, FunctionDecl.resolveMethods_eq _ _ methods,
            ScopeWalk.closeScope_errors, ScopeWalk.define_errors, ScopeWalk.openScope_errors,
            ScopeWalk.declareComplete] at herrors
          have hsuper := Expr.resolveSuperclass_errors _ _ (List.append_eq_nil_iff.mp herrors).2
          simpa using hsuper.1
  | _ => cases hname

theorem accepted_cons {s : Stmt} {ss : List Stmt} {scopes : List Scope}
    (h : Accepted ⟨.stmts (s :: ss), setting, scopes, sites⟩) :
    Accepted ⟨.stmt s, setting, scopes, sites⟩ ∧
      Accepted ⟨.stmts ss, setting, s.after scopes, sites⟩ := by
  have hs := accepted_part h (q := ⟨.stmt s, setting, scopes, sites⟩) (by simp [parts])
  refine ⟨hs, ?_⟩
  rw [← ScopeWalk.within_scopes scopes, ← s.resolve_scopes setting (.within scopes) hs.wellFormed]
  exact accepted_part h (by simp [parts])

theorem contains_of_insert {name other : String} {b : Bool}
    (h : (Bindings.insert scope name b).contains other = false) :
    name ≠ other ∧ scope.contains other = false := by
  simp only [Bindings.contains, Bindings.get?_insert] at h
  split at h
  · cases h
  · exact ⟨‹_›, h⟩

theorem accepted_after {s : Stmt} {ss : List Stmt} {name : Token} (hname : s.declares = some name)
    (h : Accepted ⟨.stmts (s :: ss), setting, scope :: outer, sites⟩) :
    Accepted ⟨.stmts ss, setting, scope.insert name.lexeme true :: outer, sites⟩ := by
  have hss := (accepted_cons h).2
  rwa [Stmt.after, hname] at hss

/-- No statement of an accepted scope declares a name that the scope had before. -/
theorem accepted_fresh {ss : List Stmt}
    (h : Accepted ⟨.stmts ss, setting, scope :: outer, sites⟩) {s : Stmt} (hs : s ∈ ss)
    {name : Token} (hname : s.declares = some name) : scope.contains name.lexeme = false := by
  induction ss generalizing scope with
  | nil => cases hs
  | cons u ss ih =>
      rcases List.mem_cons.mp hs with rfl | hs
      · exact accepted_declares (accepted_cons h).1 hname
      · cases hdeclares : u.declares with
        | none =>
            have hss := (accepted_cons h).2
            rw [Stmt.after_of_declares hdeclares] at hss
            exact ih hss hs
        | some t => exact (contains_of_insert (ih (accepted_after hdeclares h) hs)).2

/-- The names that statements of a scope declare differ. -/
def Differ (s u : Stmt) : Prop :=
  ∀ t t', s.declares = some t → u.declares = some t' → t.lexeme ≠ t'.lexeme

instance : Std.Symm Differ := ⟨fun _ _ h t t' ht ht' => (h t' t ht' ht).symm⟩

theorem accepted_differ {ss : List Stmt}
    (h : Accepted ⟨.stmts ss, setting, scope :: outer, sites⟩) : ss.Pairwise Differ := by
  induction ss generalizing scope with
  | nil => exact .nil
  | cons s ss ih =>
      refine .cons (fun u hu t t' ht ht' => ?_) ?_
      · exact (contains_of_insert (accepted_fresh (accepted_after ht h) hu ht')).1
      · cases hdeclares : s.declares with
        | none =>
            have hss := (accepted_cons h).2
            rw [Stmt.after_of_declares hdeclares] at hss
            exact ih hss
        | some t => exact ih (accepted_after hdeclares h)

/-- The scope of a function has its parameters. -/
theorem contains_params (params : List Token) (scope : Scope) (outer : List Scope) :
    ∃ inner : Scope, params.foldl (fun scopes p => completeIn p.lexeme scopes) (scope :: outer) =
      inner :: outer ∧ (∀ n, scope.contains n = true → inner.contains n = true) ∧
        ∀ p ∈ params, inner.contains p.lexeme = true := by
  induction params generalizing scope with
  | nil => exact ⟨scope, rfl, fun _ => id, nofun⟩
  | cons p params ih =>
      obtain ⟨inner, hfold, hkept, hparams⟩ := ih (scope.insert p.lexeme true)
      refine ⟨inner, hfold, fun n hn => hkept n (by simp [Bindings.contains_insert, hn]), ?_⟩
      refine List.forall_mem_cons.mpr ⟨hkept _ ?_, hparams⟩
      simp [Bindings.contains_insert]

end Point

/-- The names that statements declare in the scope they stand in. -/
def Stmt.names (ss : List Stmt) : List String := ss.filterMap fun s => s.declares.map (·.lexeme)

theorem Stmt.names_cons (s : Stmt) (ss : List Stmt) : names (s :: ss) = names [s] ++ names ss := by
  cases h : s.declares <;> simp [names, h]

theorem Stmt.names_of_declares {s : Stmt} (h : s.declares = none) : names [s] = [] := by
  simp [names, h]

namespace Point

variable {setting : Setting} {scope : Scope} {outer : List Scope} {sites : List Site}

theorem accepted_nodup {ss : List Stmt}
    (h : Accepted ⟨.stmts ss, setting, scope :: outer, sites⟩) : (Stmt.names ss).Nodup := by
  refine List.pairwise_filterMap.mpr ((accepted_differ h).imp fun hdiffer => ?_)
  intro n hn n' hn'
  obtain ⟨t, ht, rfl⟩ := Option.map_eq_some_iff.mp hn
  obtain ⟨t', ht', rfl⟩ := Option.map_eq_some_iff.mp hn'
  exact hdiffer t t' ht ht'

theorem accepted_not_contains {ss : List Stmt}
    (h : Accepted ⟨.stmts ss, setting, scope :: outer, sites⟩) {n : String}
    (hn : n ∈ Stmt.names ss) : scope.contains n = false := by
  obtain ⟨s, hs, hname⟩ := List.mem_filterMap.mp hn
  obtain ⟨t, ht, rfl⟩ := Option.map_eq_some_iff.mp hname
  exact accepted_fresh h hs ht

/-- The body of a function declares each name once, and none of its parameters. -/
theorem accepted_body {d : FunctionDecl} {scopes : List Scope}
    (h : Accepted ⟨.decl d, setting, scopes, sites⟩) :
    (Stmt.names d.body).Nodup ∧ ∀ n ∈ Stmt.names d.body, ∀ p ∈ d.params, p.lexeme ≠ n := by
  obtain ⟨name, params, body⟩ := d
  have hbody := accepted_part h (List.mem_singleton.mpr rfl)
  rw [ScopeWalk.foldl_declareComplete_scopes, ScopeWalk.openScope_scopes,
    ScopeWalk.within_scopes] at hbody
  obtain ⟨inner, hinner, -, hparams⟩ := contains_params params .empty scopes
  rw [hinner] at hbody
  refine ⟨accepted_nodup hbody, ?_⟩
  rintro n hn p hp rfl
  have hcontains := (hparams p hp).symm.trans (accepted_not_contains hbody hn)
  cases hcontains

end Point

/-! ### Names that are being declared -/

/-- The innermost scope is still declaring the name. -/
def Declaring (name : String) (scopes : List Scope) : Prop :=
  ∃ scope outer, scopes = scope :: outer ∧ scope.get? name = some false

theorem Settled.not_declaring {kind : ClassKind} {scopes : List Scope} {sites : List Site}
    (h : Settled kind scopes sites) (name : String) : ¬ Declaring name scopes := by
  rintro ⟨scope, outer, rfl, hget⟩
  cases h.complete List.mem_cons_self hget

/-- Declaring a name does so for no other one. -/
theorem Declaring.of_declareIn {name other : String} {scopes : List Scope} (hne : other ≠ name)
    (h : Declaring other (declareIn name scopes)) : Declaring other scopes := by
  obtain ⟨declared, outer, hscopes, hget⟩ := h
  cases scopes with
  | nil => cases hscopes
  | cons scope rest =>
      obtain ⟨rfl, rfl⟩ := List.cons.inj hscopes
      rw [get?_declaring hne] at hget
      exact ⟨scope, _, rfl, hget⟩

theorem Declaring.of_completeIn {name other : String} {scopes : List Scope} (hne : other ≠ name)
    (h : Declaring other scopes) : Declaring other (completeIn name scopes) := by
  obtain ⟨scope, outer, rfl, hget⟩ := h
  refine ⟨scope.insert name true, outer, rfl, ?_⟩
  rwa [Bindings.get?_insert, if_neg hne.symm]

namespace Point

/-- A name that is found where it is not being declared is complete. -/
theorem complete_of_not_declaring {e : Expr} {setting : Setting} {scopes : List Scope}
    {sites : List Site} (hplaced : Placed ⟨.expr e, setting, scopes, sites⟩) {name : String}
    (hdone : ¬ Declaring name scopes) {d : Nat}
    (hfound : scopes.findIdx? (·.contains name) = some d) :
    ∃ scope, scopes[d]? = some scope ∧ scope.get? name = some true := by
  obtain ⟨hd, hcontains, -⟩ := List.findIdx?_eq_some_iff_getElem.mp hfound
  obtain ⟨b, hget⟩ := Option.isSome_iff_exists.mp hcontains
  suffices b = true from ⟨scopes[d], List.getElem?_eq_getElem hd, by rw [hget, this]⟩
  obtain ⟨kind, settled, hsettled, -, hscopes⟩ := hplaced
  have htail : scopes.tail = settled.tail := by
    rcases hscopes with hscopes | ⟨declared, -, hscopes⟩
    · exact congrArg List.tail hscopes
    · obtain rfl : scopes = declareIn declared.lexeme settled := hscopes
      cases settled <;> rfl
  cases scopes with
  | nil => cases hd
  | cons scope outer =>
      cases d with
      | zero =>
          cases b with
          | true => rfl
          | false => exact absurd ⟨scope, outer, rfl, hget⟩ hdone
      | succ d =>
          obtain rfl : outer = settled.tail := htail
          exact hsettled.complete (List.mem_of_mem_tail (List.getElem_mem _)) hget

/-- Only the initializer of a variable stands where a name is being declared. -/
theorem declaring_of_part {p q : Point} {e : Expr} (hplaced : p.Placed)
    (hwf : p.node.WellFormed) (hq : q ∈ p.parts) (hnode : q.node = .expr e) {name : String}
    (h : Declaring name q.scopes) :
    (∃ e', p.node = .expr e') ∧ Declaring name p.scopes ∨
      ∃ declared initializer, p.node = .stmt (.var declared initializer) ∧ p.scopes ≠ [] ∧
        declared.lexeme = name := by
  obtain ⟨node, setting, scopes, sites⟩ := p
  cases node with
  | expr e' =>
      obtain ⟨part, -, rfl⟩ := List.mem_map.mp hq
      exact .inl ⟨⟨e', rfl⟩, h⟩
  | stmts ss =>
      cases ss with
      | nil => simp [parts] at hq
      | cons s ss =>
          simp only [parts, List.mem_cons, List.not_mem_nil, or_false] at hq
          rcases hq with rfl | rfl <;> cases hnode
  | decl d =>
      obtain ⟨n, params, body⟩ := d
      obtain rfl : q = _ := by simpa only [parts, List.mem_singleton] using hq
      cases hnode
  | stmt s =>
      have hsettled : Settled setting.cls scopes sites := hplaced
      have hno : ¬ Declaring name scopes := hsettled.not_declaring name
      cases s with
      | expression | print =>
          obtain rfl : q = _ := by simpa [parts] using hq
          exact absurd h hno
      | ret keyword value =>
          obtain ⟨e', -, rfl⟩ := List.mem_map.mp hq
          exact absurd h hno
      | ifThen condition body | loop condition body =>
          simp only [parts, List.mem_cons, List.not_mem_nil, or_false] at hq
          rcases hq with rfl | rfl
          · exact absurd h hno
          · cases hnode
      | ifElse condition thenBranch elseBranch =>
          simp only [parts, List.mem_cons, List.not_mem_nil, or_false] at hq
          rcases hq with rfl | rfl | rfl
          · exact absurd h hno
          · cases hnode
          · cases hnode
      | block body | function decl =>
          obtain rfl : q = _ := by simpa only [parts, List.mem_singleton] using hq
          cases hnode
      | var declared initializer =>
          obtain ⟨e', -, rfl⟩ := List.mem_map.mp hq
          simp only [ScopeWalk.declare_scopes, ScopeWalk.within_scopes] at h
          refine .inr ⟨declared, initializer, rfl, ?_, ?_⟩
          · rintro rfl
            obtain ⟨_, _, hnil, -⟩ := h
            cases hnil
          · refine Decidable.byContradiction fun hne => hno (h.of_declareIn ?_)
            exact fun heq => hne heq.symm
      | classDecl n superclass methods =>
          cases superclass with
          | none =>
              obtain ⟨d, hd, rfl⟩ := List.mem_map.mp hq
              cases hnode
          | some superclass =>
              rcases List.mem_cons.mp hq with rfl | hq
              · simp only [ScopeWalk.declareComplete_scopes, ScopeWalk.within_scopes] at h
                exact absurd h ((hsettled.completeIn hwf.1).not_declaring name)
              · obtain ⟨d, hd, rfl⟩ := List.mem_map.mp hq
                cases hnode

end Point

/-- The points in the initializer of a local variable of this name. -/
inductive Initializes (program : List Stmt) (name : String) : Point → Prop where
  | start {p q : Point} {declared : Token} {initializer : Option Expr} : Visits program p →
      p.node = .stmt (.var declared initializer) → p.scopes ≠ [] → declared.lexeme = name →
      q ∈ p.parts → Initializes program name q
  | part {p q : Point} : Initializes program name p → q ∈ p.parts → Initializes program name q

theorem Initializes.beingDeclared {program : List Stmt}
    (haccepted : (Point.root program).Accepted) {name : String} {p : Point}
    (h : Initializes program name p) : (∃ e, p.node = .expr e) ∧ Declaring name p.scopes := by
  induction h with
  | start hvisits hnode hlocal hname hq =>
      rename_i p q declared initializer
      obtain ⟨node, setting, scopes, sites⟩ := p
      obtain rfl : node = _ := hnode
      obtain ⟨e, -, rfl⟩ := List.mem_map.mp hq
      refine ⟨⟨e, rfl⟩, ?_⟩
      simp only [ScopeWalk.declare_scopes, ScopeWalk.within_scopes]
      cases scopes with
      | nil => exact absurd rfl hlocal
      | cons scope outer =>
          have hnew : scope.contains declared.lexeme = false :=
            Point.accepted_declares (hvisits.placed haccepted).1 rfl
          refine ⟨_, outer, rfl, ?_⟩
          rw [declaring, hnew, ← hname, if_neg Bool.false_ne_true, Bindings.get?_insert, if_pos rfl]
  | part hinit hq ih =>
      rename_i p q
      obtain ⟨⟨e, hnode⟩, hdeclaring⟩ := ih
      obtain ⟨node, setting, scopes, sites⟩ := p
      obtain rfl : node = .expr e := hnode
      obtain ⟨e', -, rfl⟩ := List.mem_map.mp hq
      exact ⟨⟨e', rfl⟩, hdeclaring⟩

/-- A name is being declared in its own initializer and nowhere else. -/
theorem Visits.initializes_iff {program : List Stmt} {p : Point} (h : Visits program p)
    (haccepted : (Point.root program).Accepted) {e : Expr} (hnode : p.node = .expr e)
    {name : String} : Initializes program name p ↔ Declaring name p.scopes := by
  refine ⟨fun hinit => (hinit.beingDeclared haccepted).2, fun hdeclaring => ?_⟩
  induction h generalizing e with
  | program => cases hnode
  | part hvisits hq ih =>
      obtain ⟨hparent, hplaced⟩ := hvisits.placed haccepted
      rcases Point.declaring_of_part hplaced hparent.wellFormed hq hnode hdeclaring with
        ⟨⟨e', hnode'⟩, hdeclaring'⟩ | ⟨declared, initializer, hvar, hlocal, hname⟩
      · exact .part (ih hnode' hdeclaring') hq
      · exact .start hvisits hvar hlocal hname hq

end ScriptLang
