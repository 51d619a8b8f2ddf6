import ScriptLang.Proofs.Numbering.Trees

/-! Phrases whose references are numbered from elsewhere on: the same tokens stand for the same
tree with other ids. -/

namespace ScriptLang

/-- What a phrase stands for, with other ids. -/
def Symbol.renumber (σ : ExprId → ExprId) : (x : Symbol) → x.Tree → x.Tree
  | .declarations => Stmt.renumberEach σ
  | .declaration => Stmt.renumber σ
  | .varDecl => Stmt.renumber σ
  | .functions => FunctionDecl.renumberEach σ
  | .function => FunctionDecl.renumber σ
  | .parameters => id
  | .statement _ => Stmt.renumber σ
  | .exprStmt => Stmt.renumber σ
  | .forInit => Option.map (Stmt.renumber σ)
  | .optional => Option.map (Expr.renumber σ)
  | .expression => Expr.renumber σ
  | .operation _ => Expr.renumber σ
  | .unary => Expr.renumber σ
  | .call => Expr.renumber σ
  | .arguments => Expr.renumberEach σ
  | .primary => Expr.renumber σ

/-- The ids from `i` up to `j` become, in the same order, those from `i'` up to `j'`. -/
structure Shifts (σ : Nat → Nat) (i j i' j' : Nat) : Prop where
  span : i + j' = i' + j
  apply : ∀ id, i ≤ id → id < j → σ id + i = id + i'

namespace Shifts

variable {σ : Nat → Nat} {i j i' j' : Nat}

/-- Ids that stay. -/
theorem of_fixed (h : ∀ id, i ≤ id → id < j → σ id = id) : Shifts σ i j i j :=
  ⟨rfl, fun id hi hj => by rw [h id hi hj]⟩

theorem eq (h : Shifts σ i i i' j') : j' = i' := by
  have hspan := h.span
  omega

theorem one (h : Shifts σ i (i + 1) i' j') : σ i = i' ∧ j' = i' + 1 := by
  have hspan := h.span
  have hi := h.apply i (Nat.le_refl i) (Nat.lt_succ_self i)
  omega

/-- The ids of a phrase that is followed by another. -/
theorem split (h : Shifts σ i j i' j') {k : Nat} (hik : i ≤ k) (hkj : k ≤ j) :
    ∃ k', Shifts σ i k i' k' ∧ Shifts σ k j k' j' := by
  have hspan := h.span
  refine ⟨i' + (k - i), ⟨by omega, fun id hi hk => h.apply id hi (by omega)⟩,
    ⟨by omega, fun id hk hj => ?_⟩⟩
  have hid := h.apply id (by omega) hj
  omega

/-- The first id, and those of what follows. -/
theorem succ (h : Shifts σ i j i' j') (hij : i + 1 ≤ j) :
    σ i = i' ∧ Shifts σ (i + 1) j (i' + 1) j' := by
  obtain ⟨k', hi, hj⟩ := h.split (Nat.le_succ i) hij
  obtain ⟨hid, rfl⟩ := hi.one
  exact ⟨hid, hj⟩

end Shifts

theorem Level.Joins.renumber {level : Level} {left right e : Expr} {operator : Token}
    (h : level.Joins left operator right e) (σ : ExprId → ExprId) :
    level.Joins (left.renumber σ) operator (right.renumber σ) (e.renumber σ) := by
  cases h with
  | or h => exact .or h
  | and h => exact .and h
  | equality h => exact .equality h
  | comparison h => exact .comparison h
  | term h => exact .term h
  | factor h => exact .factor h

theorem Stmt.ForForm.renumber {init : Option Stmt} {condition increment : Option Expr}
    {body s : Stmt} (h : ForForm init condition increment body s) (σ : ExprId → ExprId) :
    ForForm (init.map (Stmt.renumber σ)) (condition.map (Expr.renumber σ))
      (increment.map (Expr.renumber σ)) (body.renumber σ) (s.renumber σ) := by
  induction h with
  | endless => exact .endless
  | loop => exact .loop
  | increment _ ih => exact .increment ih
  | initializer _ ih => exact .initializer ih

/-- A phrase is one wherever its ids begin, and stands for the same tree with other ids. -/
theorem Derives.renumber {x : Symbol} {i j : ExprId} {ts : List Token} {a : x.Tree}
    (h : Derives x i ts a j) {σ : ExprId → ExprId} {i' j' : ExprId} (hσ : Shifts σ i j i' j') :
    Derives x i' ts (x.renumber σ a) j' := by
  induction h generalizing i' j' with
  | noDeclarations =>
      rw [hσ.eq]
      exact .noDeclarations
  | declarations hs hss ih ihs =>
      obtain ⟨k', hleft, hright⟩ := hσ.split hs.numbered.le hss.numbered.le
      exact .declarations (ih hleft) (ihs hright)
  | baseClass hkeyword hname hlbrace _ hrbrace ih =>
      exact .baseClass hkeyword hname hlbrace (ih hσ) hrbrace
  | derivedClass hkeyword hname hless hparent hlbrace hds hrbrace ih =>
      obtain ⟨rfl, hσ⟩ := hσ.succ hds.numbered.le
      exact .derivedClass hkeyword hname hless hparent hlbrace (ih hσ) hrbrace
  | funDecl hkeyword _ ih => exact .funDecl hkeyword (ih hσ)
  | varDecl _ ih => exact .varDecl (ih hσ)
  | statement d _ ih => exact .statement d (ih hσ)
  | varBare hkeyword hname hsemicolon =>
      rw [hσ.eq]
      exact .varBare hkeyword hname hsemicolon
  | varInit hkeyword hname hequal _ hsemicolon ih =>
      exact .varInit hkeyword hname hequal (ih hσ) hsemicolon
  | noFunctions =>
      rw [hσ.eq]
      exact .noFunctions
  | functions hd hds ih ihs =>
      obtain ⟨k', hleft, hright⟩ := hσ.split hd.numbered.le hds.numbered.le
      exact .functions (ih hleft) (ihs hright)
  | functionBare hname hlparen hrparen hlbrace _ hrbrace ih =>
      exact .functionBare hname hlparen hrparen hlbrace (ih hσ) hrbrace
  | function hname hlparen hparams hlength hrparen hlbrace hbody hrbrace ih ihbody =>
      obtain ⟨k', hleft, hright⟩ := hσ.split hparams.numbered.le hbody.numbered.le
      exact .function hname hlparen (ih hleft) hlength hrparen hlbrace (ihbody hright) hrbrace
  | parameter hname =>
      rw [hσ.eq]
      exact .parameter hname
  | parameters hname hcomma _ ih => exact .parameters hname hcomma (ih hσ)
  | exprStatement _ ih => exact .exprStatement (ih hσ)
  | forStatement hkeyword hlparen hinit hcondition hsemicolon hincrement hrparen hbody hform
      ihinit ihcondition ihincrement ihbody =>
      obtain ⟨hle, hle'⟩ := And.intro hincrement.numbered.le hbody.numbered.le
      obtain ⟨j₂, hfirst, hσ⟩ := hσ.split hinit.numbered.le
        (Nat.le_trans hcondition.numbered.le (Nat.le_trans hle hle'))
      obtain ⟨k₂, hsecond, hσ⟩ := hσ.split hcondition.numbered.le (Nat.le_trans hle hle')
      obtain ⟨l₂, hthird, hlast⟩ := hσ.split hle hle'
      exact .forStatement hkeyword hlparen (ihinit hfirst) (ihcondition hsecond) hsemicolon
        (ihincrement hthird) hrparen (ihbody hlast) (hform.renumber σ)
  | ifThen d hkeyword hlparen hcondition hrparen hs ih ihs =>
      obtain ⟨k', hleft, hright⟩ := hσ.split hcondition.numbered.le hs.numbered.le
      exact .ifThen d hkeyword hlparen (ih hleft) hrparen (ihs hright)
  | ifElse hkeyword hlparen hcondition hrparen hs hotherwise ht ih ihs iht =>
      obtain ⟨j₂, hleft, hσ⟩ := hσ.split hcondition.numbered.le
        (Nat.le_trans hs.numbered.le ht.numbered.le)
      obtain ⟨k₂, hmiddle, hright⟩ := hσ.split hs.numbered.le ht.numbered.le
      exact .ifElse hkeyword hlparen (ih hleft) hrparen (ihs hmiddle) hotherwise (iht hright)
  | print hkeyword _ hsemicolon ih => exact .print hkeyword (ih hσ) hsemicolon
  | ret hkeyword _ hsemicolon ih => exact .ret hkeyword (ih hσ) hsemicolon
  | whileStatement hkeyword hlparen hcondition hrparen hs ih ihs =>
      obtain ⟨k', hleft, hright⟩ := hσ.split hcondition.numbered.le hs.numbered.le
      exact .whileStatement hkeyword hlparen (ih hleft) hrparen (ihs hright)
  | block hlbrace _ hrbrace ih => exact .block hlbrace (ih hσ) hrbrace
  | exprStmt _ hsemicolon ih => exact .exprStmt (ih hσ) hsemicolon
  | forVar _ ih => exact .forVar (ih hσ)
  | forExpr _ ih => exact .forExpr (ih hσ)
  | forNone hsemicolon =>
      rw [hσ.eq]
      exact .forNone hsemicolon
  | absent =>
      rw [hσ.eq]
      exact .absent
  | present _ ih => exact .present (ih hσ)
  | assign hname hequal he ih =>
      obtain ⟨rfl, hσ⟩ := hσ.succ he.numbered.le
      exact .assign hname hequal (ih hσ)
  | set hobject hdot hname hequal he ih ihe =>
      obtain ⟨k', hleft, hright⟩ := hσ.split hobject.numbered.le he.numbered.le
      exact .set (ih hleft) hdot hname hequal (ihe hright)
  | operation _ ih => exact .operation (ih hσ)
  | operand _ ih => exact .operand (ih hσ)
  | tighter _ ih => exact .tighter (ih hσ)
  | join hleft hright hjoins ih ihright =>
      obtain ⟨k', hσleft, hσright⟩ := hσ.split hleft.numbered.le hright.numbered.le
      exact .join (ih hσleft) (ihright hσright) (hjoins.renumber σ)
  | unary hoperator _ ih => exact .unary hoperator (ih hσ)
  | call _ ih => exact .call (ih hσ)
  | callee _ ih => exact .callee (ih hσ)
  | callBare _ hlparen hrparen ih => exact .callBare (ih hσ) hlparen hrparen
  | @callWith _ _ _ _ _ _ arguments _ _ hcallee hlparen harguments hlength hrparen ih iharguments =>
      obtain ⟨k', hleft, hright⟩ := hσ.split hcallee.numbered.le harguments.numbered.le
      have hsame : (Expr.renumberEach σ arguments).length = arguments.length := by
        rw [Expr.renumberEach_eq, List.length_map]
      exact .callWith (ih hleft) hlparen (iharguments hright) (hsame ▸ hlength) hrparen
  | get _ hdot hname ih => exact .get (ih hσ) hdot hname
  | argument _ ih => exact .argument (ih hσ)
  | arguments he hcomma hes ih ihs =>
      obtain ⟨k', hleft, hright⟩ := hσ.split he.numbered.le hes.numbered.le
      exact .arguments (ih hleft) hcomma (ihs hright)
  | number ht =>
      rw [hσ.eq]
      exact .number ht
  | string ht =>
      rw [hσ.eq]
      exact .string ht
  | trueWord ht =>
      rw [hσ.eq]
      exact .trueWord ht
  | falseWord ht =>
      rw [hσ.eq]
      exact .falseWord ht
  | nilWord ht =>
      rw [hσ.eq]
      exact .nilWord ht
  | this ht =>
      obtain ⟨rfl, rfl⟩ := hσ.one
      exact .this ht
  | reference ht =>
      obtain ⟨rfl, rfl⟩ := hσ.one
      exact .reference ht
  | grouping hlparen _ hrparen ih => exact .grouping hlparen (ih hσ) hrparen
  | super hkeyword hdot hmethod =>
      obtain ⟨rfl, rfl⟩ := hσ.one
      exact .super hkeyword hdot hmethod

end ScriptLang
