import ScriptLang.Proofs.Joining.Tokens
import ScriptLang.Proofs.Scoping.Trees
import ScriptLang.Session

/-! Programs that are alike: they differ only in tokens that stand for each other. -/

namespace ScriptLang

/-- How programs and sessions may differ and still be alike: which tokens stand for each other, and
which ids references may have. -/
structure Likeness where
  token : Token → Token → Prop
  id : ExprId → Prop
  kind {t t' : Token} : token t t' → t'.kind = t.kind
  lexeme {t t' : Token} : token t t' → t'.lexeme = t.lexeme
  this : token Session.thisToken Session.thisToken

section Trees

variable (l : Likeness)

inductive Token.AlikeEach : List Token → List Token → Prop where
  | nil : AlikeEach [] []
  | cons {t t' ts ts'} : l.token t t' → AlikeEach ts ts' → AlikeEach (t :: ts) (t' :: ts')

mutual

/-- Expressions that are alike have the same ids, each of those that references may have. -/
inductive Expr.Alike : Expr → Expr → Prop where
  | literal (value : Literal) : Expr.Alike (.literal value) (.literal value)
  | grouping {e e'} : Expr.Alike e e' → Expr.Alike (.grouping e) (.grouping e')
  | unary {t t' e e'} : l.token t t' → Expr.Alike e e' → Expr.Alike (.unary t e) (.unary t' e')
  | binary {e e' t t' u u'} : Expr.Alike e e' → l.token t t' → Expr.Alike u u' →
      Expr.Alike (.binary e t u) (.binary e' t' u')
  | logical {e e' t t' u u'} : Expr.Alike e e' → l.token t t' → Expr.Alike u u' →
      Expr.Alike (.logical e t u) (.logical e' t' u')
  | variable {id t t'} : l.id id → l.token t t' →
      Expr.Alike (.variable id t) (.variable id t')
  | assign {id t t' e e'} : l.id id → l.token t t' → Expr.Alike e e' →
      Expr.Alike (.assign id t e) (.assign id t' e')
  | call {e e' t t' es es'} : Expr.Alike e e' → l.token t t' → Expr.AlikeEach es es' →
      Expr.Alike (.call e t es) (.call e' t' es')
  | get {e e' t t'} : Expr.Alike e e' → l.token t t' → Expr.Alike (.get e t) (.get e' t')
  | set {e e' t t' u u'} : Expr.Alike e e' → l.token t t' → Expr.Alike u u' →
      Expr.Alike (.set e t u) (.set e' t' u')
  | this {id t t'} : l.id id → l.token t t' → Expr.Alike (.this id t) (.this id t')
  | super {id t t' u u'} : l.id id → l.token t t' → l.token u u' →
      Expr.Alike (.super id t u) (.super id t' u')

inductive Expr.AlikeEach : List Expr → List Expr → Prop where
  | nil : Expr.AlikeEach [] []
  | cons {e e' es es'} : Expr.Alike e e' → Expr.AlikeEach es es' →
      Expr.AlikeEach (e :: es) (e' :: es')

end

mutual

inductive Stmt.Alike : Stmt → Stmt → Prop where
  | expression {e e'} : e.Alike l e' → Stmt.Alike (.expression e) (.expression e')
  | print {e e'} : e.Alike l e' → Stmt.Alike (.print e) (.print e')
  | var {t t' e e'} : l.token t t' → Option.Rel (Expr.Alike l) e e' →
      Stmt.Alike (.var t e) (.var t' e')
  | block {ss ss'} : Stmt.AlikeEach ss ss' → Stmt.Alike (.block ss) (.block ss')
  | ifThen {e e' s s'} : e.Alike l e' → Stmt.Alike s s' →
      Stmt.Alike (.ifThen e s) (.ifThen e' s')
  | ifElse {e e' s s' u u'} : e.Alike l e' → Stmt.Alike s s' → Stmt.Alike u u' →
      Stmt.Alike (.ifElse e s u) (.ifElse e' s' u')
  | loop {e e' s s'} : e.Alike l e' → Stmt.Alike s s' → Stmt.Alike (.loop e s) (.loop e' s')
  | function {d d'} : FunctionDecl.Alike d d' → Stmt.Alike (.function d) (.function d')
  | ret {t t' e e'} : l.token t t' → Option.Rel (Expr.Alike l) e e' →
      Stmt.Alike (.ret t e) (.ret t' e')
  | classDecl {t t' e e' ds ds'} : l.token t t' → Option.Rel (Expr.Alike l) e e' →
      FunctionDecl.AlikeEach ds ds' → Stmt.Alike (.classDecl t e ds) (.classDecl t' e' ds')

inductive Stmt.AlikeEach : List Stmt → List Stmt → Prop where
  | nil : Stmt.AlikeEach [] []
  | cons {s s' ss ss'} : Stmt.Alike s s' → Stmt.AlikeEach ss ss' →
      Stmt.AlikeEach (s :: ss) (s' :: ss')

inductive FunctionDecl.Alike : FunctionDecl → FunctionDecl → Prop where
  | mk {t t' ps ps' ss ss'} : l.token t t' → Token.AlikeEach l ps ps' → Stmt.AlikeEach ss ss' →
      FunctionDecl.Alike (.mk t ps ss) (.mk t' ps' ss')

inductive FunctionDecl.AlikeEach : List FunctionDecl → List FunctionDecl → Prop where
  | nil : FunctionDecl.AlikeEach [] []
  | cons {d d' ds ds'} : FunctionDecl.Alike d d' → FunctionDecl.AlikeEach ds ds' →
      FunctionDecl.AlikeEach (d :: ds) (d' :: ds')

end

/-- The trees of a symbol that are alike. -/
def Symbol.Alike : (x : Symbol) → x.Tree → x.Tree → Prop
  | .declarations => Stmt.AlikeEach l
  | .declaration => Stmt.Alike l
  | .varDecl => Stmt.Alike l
  | .functions => FunctionDecl.AlikeEach l
  | .function => FunctionDecl.Alike l
  | .parameters => Token.AlikeEach l
  | .statement _ => Stmt.Alike l
  | .exprStmt => Stmt.Alike l
  | .forInit => Option.Rel (Stmt.Alike l)
  | .optional => Option.Rel (Expr.Alike l)
  | .expression => Expr.Alike l
  | .operation _ => Expr.Alike l
  | .unary => Expr.Alike l
  | .call => Expr.Alike l
  | .arguments => Expr.AlikeEach l
  | .primary => Expr.Alike l

end Trees

/-! ### What is the same -/

theorem Token.AlikeEach.length_eq {l : Likeness} {ts ts' : List Token} (h : AlikeEach l ts ts') :
    ts'.length = ts.length := by
  induction h with
  | nil => rfl
  | cons _ _ ih => simp [ih]

theorem Expr.AlikeEach.length_eq {l : Likeness} : {es es' : List Expr} → AlikeEach l es es' →
    es'.length = es.length
  | _, _, .nil => rfl
  | _, _, .cons _ h => congrArg (· + 1) h.length_eq

namespace FunctionDecl.Alike

variable {l : Likeness} {d d' : FunctionDecl}

theorem name (h : d.Alike l d') : d'.name.lexeme = d.name.lexeme := by
  cases h with
  | mk ht => exact l.lexeme ht

theorem params (h : d.Alike l d') : Token.AlikeEach l d.params d'.params := by
  cases h with
  | mk _ hps => exact hps

theorem body (h : d.Alike l d') : Stmt.AlikeEach l d.body d'.body := by
  cases h with
  | mk _ _ hs => exact hs

theorem arity (h : d.Alike l d') : d'.arity = d.arity := h.params.length_eq

theorem isInit (h : d.Alike l d') : d'.isInit = d.isInit :=
  decide_eq_decide.mpr (by rw [h.name])

end FunctionDecl.Alike

/-! ### More and less likeness -/

/-- What is alike in the first way is alike in the second. -/
structure Likeness.Implies (l l' : Likeness) : Prop where
  token {t t' : Token} : l.token t t' → l'.token t t'
  id {id : ExprId} : l.id id → l'.id id

section Mono

variable {l l' : Likeness}

theorem Token.AlikeEach.mono (hl : l.Implies l') : {ts ts' : List Token} → AlikeEach l ts ts' →
    AlikeEach l' ts ts'
  | _, _, .nil => .nil
  | _, _, .cons h hs => .cons (hl.token h) (hs.mono hl)

mutual

theorem Expr.Alike.mono (hl : l.Implies l') : {e e' : Expr} → e.Alike l e' → e.Alike l' e'
  | _, _, .literal value => .literal value
  | _, _, .grouping h => .grouping (h.mono hl)
  | _, _, .unary ht h => .unary (hl.token ht) (h.mono hl)
  | _, _, .binary h ht hu => .binary (h.mono hl) (hl.token ht) (hu.mono hl)
  | _, _, .logical h ht hu => .logical (h.mono hl) (hl.token ht) (hu.mono hl)
  | _, _, .variable hid ht => .variable (hl.id hid) (hl.token ht)
  | _, _, .assign hid ht h => .assign (hl.id hid) (hl.token ht) (h.mono hl)
  | _, _, .call h ht hs => .call (h.mono hl) (hl.token ht) (hs.mono hl)
  | _, _, .get h ht => .get (h.mono hl) (hl.token ht)
  | _, _, .set h ht hu => .set (h.mono hl) (hl.token ht) (hu.mono hl)
  | _, _, .this hid ht => .this (hl.id hid) (hl.token ht)
  | _, _, .super hid ht hu => .super (hl.id hid) (hl.token ht) (hl.token hu)

theorem Expr.AlikeEach.mono (hl : l.Implies l') : {es es' : List Expr} → AlikeEach l es es' →
    AlikeEach l' es es'
  | _, _, .nil => .nil
  | _, _, .cons h hs => .cons (h.mono hl) (hs.mono hl)

end

theorem Expr.alike?_mono (hl : l.Implies l') : {e e' : Option Expr} →
    Option.Rel (Expr.Alike l) e e' → Option.Rel (Expr.Alike l') e e'
  | _, _, .none => .none
  | _, _, .some h => .some (h.mono hl)

mutual

theorem Stmt.Alike.mono (hl : l.Implies l') : {s s' : Stmt} → s.Alike l s' → s.Alike l' s'
  | _, _, .expression h => .expression (h.mono hl)
  | _, _, .print h => .print (h.mono hl)
  | _, _, .var ht h => .var (hl.token ht) (Expr.alike?_mono hl h)
  | _, _, .block hs => .block (hs.mono hl)
  | _, _, .ifThen h hs => .ifThen (h.mono hl) (hs.mono hl)
  | _, _, .ifElse h hs hu => .ifElse (h.mono hl) (hs.mono hl) (hu.mono hl)
  | _, _, .loop h hs => .loop (h.mono hl) (hs.mono hl)
  | _, _, .function hd => .function (hd.mono hl)
  | _, _, .ret ht h => .ret (hl.token ht) (Expr.alike?_mono hl h)
  | _, _, .classDecl ht h hds => .classDecl (hl.token ht) (Expr.alike?_mono hl h) (hds.mono hl)

theorem Stmt.AlikeEach.mono (hl : l.Implies l') : {ss ss' : List Stmt} →
    Stmt.AlikeEach l ss ss' → Stmt.AlikeEach l' ss ss'
  | _, _, .nil => .nil
  | _, _, .cons h hs => .cons (h.mono hl) (hs.mono hl)

theorem FunctionDecl.Alike.mono (hl : l.Implies l') : {d d' : FunctionDecl} → d.Alike l d' →
    d.Alike l' d'
  | _, _, .mk ht hps hs => .mk (hl.token ht) (hps.mono hl) (hs.mono hl)

theorem FunctionDecl.AlikeEach.mono (hl : l.Implies l') : {ds ds' : List FunctionDecl} →
    FunctionDecl.AlikeEach l ds ds' → FunctionDecl.AlikeEach l' ds ds'
  | _, _, .nil => .nil
  | _, _, .cons h hs => .cons (h.mono hl) (hs.mono hl)

end

end Mono

section Exact

variable {l : Likeness}

/-- Every token stands for itself only. -/
def Likeness.Exact (l : Likeness) : Prop := ∀ {t t' : Token}, l.token t t' → t' = t

theorem Token.AlikeEach.eq (hl : l.Exact) : {ts ts' : List Token} → AlikeEach l ts ts' → ts' = ts
  | _, _, .nil => rfl
  | _, _, .cons h hs => by rw [hl h, hs.eq hl]

mutual

theorem Expr.Alike.eq (hl : l.Exact) : {e e' : Expr} → e.Alike l e' → e' = e
  | _, _, .literal _ => rfl
  | _, _, .grouping h => by rw [h.eq hl]
  | _, _, .unary ht h => by rw [hl ht, h.eq hl]
  | _, _, .binary h ht hu | _, _, .logical h ht hu | _, _, .set h ht hu => by
      rw [h.eq hl, hl ht, hu.eq hl]
  | _, _, .variable _ ht | _, _, .this _ ht => by rw [hl ht]
  | _, _, .assign _ ht h => by rw [hl ht, h.eq hl]
  | _, _, .call h ht hs => by rw [h.eq hl, hl ht, hs.eq hl]
  | _, _, .get h ht => by rw [h.eq hl, hl ht]
  | _, _, .super _ ht hu => by rw [hl ht, hl hu]

theorem Expr.AlikeEach.eq (hl : l.Exact) : {es es' : List Expr} → AlikeEach l es es' → es' = es
  | _, _, .nil => rfl
  | _, _, .cons h hs => by rw [h.eq hl, hs.eq hl]

end

theorem Expr.alike?_eq (hl : l.Exact) : {e e' : Option Expr} →
    Option.Rel (Expr.Alike l) e e' → e' = e
  | _, _, .none => rfl
  | _, _, .some h => by rw [h.eq hl]

mutual

theorem Stmt.Alike.eq (hl : l.Exact) : {s s' : Stmt} → s.Alike l s' → s' = s
  | _, _, .expression h | _, _, .print h => by rw [h.eq hl]
  | _, _, .var ht h | _, _, .ret ht h => by rw [hl ht, Expr.alike?_eq hl h]
  | _, _, .block hs => by rw [hs.eq hl]
  | _, _, .ifThen h hs | _, _, .loop h hs => by rw [h.eq hl, hs.eq hl]
  | _, _, .ifElse h hs hu => by rw [h.eq hl, hs.eq hl, hu.eq hl]
  | _, _, .function hd => by rw [hd.eq hl]
  | _, _, .classDecl ht h hds => by rw [hl ht, Expr.alike?_eq hl h, hds.eq hl]

theorem Stmt.AlikeEach.eq (hl : l.Exact) : {ss ss' : List Stmt} →
    Stmt.AlikeEach l ss ss' → ss' = ss
  | _, _, .nil => rfl
  | _, _, .cons h hs => by rw [h.eq hl, hs.eq hl]

theorem FunctionDecl.Alike.eq (hl : l.Exact) : {d d' : FunctionDecl} → d.Alike l d' → d' = d
  | _, _, .mk ht hps hs => by rw [hl ht, hps.eq hl, hs.eq hl]

theorem FunctionDecl.AlikeEach.eq (hl : l.Exact) : {ds ds' : List FunctionDecl} →
    FunctionDecl.AlikeEach l ds ds' → ds' = ds
  | _, _, .nil => rfl
  | _, _, .cons h hs => by rw [h.eq hl, hs.eq hl]

end

end Exact

/-! ### Phrases on other lines -/

/-- Tokens on other lines, each on the one that `f` gives for its place and itself. -/
def Token.moveEach (f : Nat → Token → Nat) : Nat → List Token → List Token
  | _, [] => []
  | k, t :: ts => { t with line := f k t } :: moveEach f (k + 1) ts

theorem Token.moveEach_append (f : Nat → Token → Nat) (k : Nat) (ts us : List Token) :
    moveEach f k (ts ++ us) = moveEach f k ts ++ moveEach f (k + ts.length) us := by
  induction ts generalizing k with
  | nil => rfl
  | cons t ts ih => simp [moveEach, ih, Nat.add_assoc, Nat.add_comm 1]

theorem Token.moveEach_const (f : Token → Nat) (k : Nat) (ts : List Token) :
    moveEach (fun _ => f) k ts = ts.map fun t => { t with line := f t } := by
  induction ts generalizing k with
  | nil => rfl
  | cons t ts ih => simp [moveEach, ih]

/-- Tokens stand for themselves on other lines. -/
def Likeness.Moves (l : Likeness) (f : Nat → Token → Nat) : Nat → List Token → Prop
  | _, [] => True
  | k, t :: ts => l.token t { t with line := f k t } ∧ l.Moves f (k + 1) ts

theorem Likeness.moves_append {l : Likeness} {f : Nat → Token → Nat} {k : Nat}
    {ts us : List Token} :
    l.Moves f k (ts ++ us) ↔ l.Moves f k ts ∧ l.Moves f (k + ts.length) us := by
  induction ts generalizing k with
  | nil => simp [Moves]
  | cons t ts ih => simp [Moves, ih, and_assoc, Nat.add_assoc, Nat.add_comm 1]

theorem Likeness.moves_const {l : Likeness} {f : Token → Nat} {ts : List Token}
    (h : ∀ t ∈ ts, l.token t { t with line := f t }) (k : Nat) : l.Moves (fun _ => f) k ts := by
  induction ts generalizing k with
  | nil => trivial
  | cons t ts ih =>
      exact ⟨h t List.mem_cons_self, ih (fun u hu => h u (List.mem_cons_of_mem t hu)) (k + 1)⟩

theorem Level.Joins.moved {l : Likeness} {level : Level} {left right e left' right' : Expr}
    {operator : Token} {line : Nat} (h : level.Joins left operator right e)
    (hleft : left.Alike l left') (hoperator : l.token operator { operator with line })
    (hright : right.Alike l right') :
    ∃ e', level.Joins left' { operator with line } right' e' ∧ e.Alike l e' := by
  cases h with
  | or h => exact ⟨_, .or h, .logical hleft hoperator hright⟩
  | and h => exact ⟨_, .and h, .logical hleft hoperator hright⟩
  | equality h => exact ⟨_, .equality h, .binary hleft hoperator hright⟩
  | comparison h => exact ⟨_, .comparison h, .binary hleft hoperator hright⟩
  | term h => exact ⟨_, .term h, .binary hleft hoperator hright⟩
  | factor h => exact ⟨_, .factor h, .binary hleft hoperator hright⟩

theorem Stmt.ForForm.alike {l : Likeness} {init init' : Option Stmt}
    {condition condition' increment increment' : Option Expr} {body body' s : Stmt}
    (h : ForForm init condition increment body s) (hinit : Option.Rel (Stmt.Alike l) init init')
    (hcondition : Option.Rel (Expr.Alike l) condition condition')
    (hincrement : Option.Rel (Expr.Alike l) increment increment') (hbody : body.Alike l body') :
    ∃ s', ForForm init' condition' increment' body' s' ∧ s.Alike l s' := by
  induction h generalizing init' increment' body' with
  | endless =>
      cases hinit
      cases hcondition
      cases hincrement
      exact ⟨_, .endless, .loop (.literal _) hbody⟩
  | loop =>
      cases hinit
      cases hincrement
      cases hcondition with
      | some hcondition => exact ⟨_, .loop, .loop hcondition hbody⟩
  | increment _ ih =>
      cases hinit
      cases hincrement with
      | some hincrement =>
          obtain ⟨s', hform, hs⟩ :=
            ih .none hcondition .none (.block (.cons hbody (.cons (.expression hincrement) .nil)))
          exact ⟨s', .increment hform, hs⟩
  | initializer _ ih =>
      cases hinit with
      | some hinit =>
          obtain ⟨s', hform, hs⟩ := ih .none hcondition hincrement hbody
          exact ⟨_, .initializer hform, .block (.cons hinit (.cons hs .nil))⟩

/-- Every id below `j` is one that references may have. -/
def Likeness.Below (l : Likeness) (j : ExprId) : Prop := ∀ id < j, l.id id

theorem Likeness.Below.of_le {l : Likeness} {j k : ExprId} (h : l.Below k) (hle : j ≤ k) :
    l.Below j :=
  fun id hid => h id (Nat.lt_of_lt_of_le hid hle)

/-- A phrase on other lines stands for a tree that is alike, with the same ids. -/
theorem Derives.moved {l : Likeness} {f : Nat → Token → Nat} {x : Symbol} {i j : ExprId}
    {ts : List Token} {a : x.Tree} (h : Derives x i ts a j) {k : Nat} (hts : l.Moves f k ts)
    (hids : l.Below j) : ∃ a', Derives x i (Token.moveEach f k ts) a' j ∧ x.Alike l a a' := by
  induction h generalizing k with
  | noDeclarations => exact ⟨_, .noDeclarations, Stmt.AlikeEach.nil⟩
  | declarations _ hrest ih ih₂ =>
      obtain ⟨hts, hus⟩ := Likeness.moves_append.mp hts
      obtain ⟨s, hs, hs'⟩ := ih hts (hids.of_le hrest.numbered.le)
      obtain ⟨ss, hss, hss'⟩ := ih₂ hus hids
      rw [Token.moveEach_append]
      exact ⟨_, .declarations hs hss, Stmt.AlikeEach.cons hs' hss'⟩
  | baseClass hkeyword hname hlbrace _ hrbrace ih =>
      obtain ⟨⟨-, hname', -, hts⟩, -⟩ := Likeness.moves_append.mp hts
      obtain ⟨ds, hds, hds'⟩ := ih hts hids
      rw [Token.moveEach_append]
      exact ⟨_, .baseClass hkeyword hname hlbrace hds hrbrace,
        Stmt.Alike.classDecl hname' .none hds'⟩
  | derivedClass hkeyword hname hless hparent hlbrace hmethods hrbrace ih =>
      obtain ⟨⟨-, hname', -, hparent', -, hts⟩, -⟩ := Likeness.moves_append.mp hts
      obtain ⟨ds, hds, hds'⟩ := ih hts hids
      rw [Token.moveEach_append]
      exact ⟨_, .derivedClass hkeyword hname hless hparent hlbrace hds hrbrace,
        Stmt.Alike.classDecl hname' (.some (.variable (hids _ hmethods.numbered.le) hparent')) hds'⟩
  | funDecl hkeyword _ ih =>
      obtain ⟨d, hd, hd'⟩ := ih hts.2 hids
      exact ⟨_, .funDecl hkeyword hd, Stmt.Alike.function hd'⟩
  | varDecl _ ih =>
      obtain ⟨s, hs, hs'⟩ := ih hts hids
      exact ⟨s, .varDecl hs, hs'⟩
  | statement dangling _ ih =>
      obtain ⟨s, hs, hs'⟩ := ih hts hids
      exact ⟨s, .statement dangling hs, hs'⟩
  | varBare hkeyword hname hsemicolon =>
      exact ⟨_, .varBare hkeyword hname hsemicolon, Stmt.Alike.var hts.2.1 .none⟩
  | varInit hkeyword hname hequal _ hsemicolon ih =>
      obtain ⟨⟨-, hname', -, hts⟩, -⟩ := Likeness.moves_append.mp hts
      obtain ⟨e, he, he'⟩ := ih hts hids
      rw [Token.moveEach_append]
      exact ⟨_, .varInit hkeyword hname hequal he hsemicolon, Stmt.Alike.var hname' (.some he')⟩
  | noFunctions => exact ⟨_, .noFunctions, FunctionDecl.AlikeEach.nil⟩
  | functions _ hrest ih ih₂ =>
      obtain ⟨hts, hus⟩ := Likeness.moves_append.mp hts
      obtain ⟨d, hd, hd'⟩ := ih hts (hids.of_le hrest.numbered.le)
      obtain ⟨ds, hds, hds'⟩ := ih₂ hus hids
      rw [Token.moveEach_append]
      exact ⟨_, .functions hd hds, FunctionDecl.AlikeEach.cons hd' hds'⟩
  | functionBare hname hlparen hrparen hlbrace _ hrbrace ih =>
      obtain ⟨⟨hname', -, -, -, hts⟩, -⟩ := Likeness.moves_append.mp hts
      obtain ⟨ss, hss, hss'⟩ := ih hts hids
      rw [Token.moveEach_append]
      exact ⟨_, .functionBare hname hlparen hrparen hlbrace hss hrbrace,
        FunctionDecl.Alike.mk hname' .nil hss'⟩
  | function hname hlparen _ hlength hrparen hlbrace hbody hrbrace ih ih₂ =>
      obtain ⟨hts, -⟩ := Likeness.moves_append.mp hts
      obtain ⟨⟨hname', -, hps⟩, -, -, hts⟩ := Likeness.moves_append.mp hts
      obtain ⟨ps, hps, hps'⟩ := ih hps (hids.of_le hbody.numbered.le)
      obtain ⟨ss, hss, hss'⟩ := ih₂ hts hids
      rw [Token.moveEach_append, Token.moveEach_append]
      exact ⟨_, .function hname hlparen hps (Token.AlikeEach.length_eq hps' ▸ hlength) hrparen
        hlbrace hss hrbrace, FunctionDecl.Alike.mk hname' hps' hss'⟩
  | parameter hname => exact ⟨_, .parameter hname, Token.AlikeEach.cons hts.1 .nil⟩
  | parameters hname hcomma _ ih =>
      obtain ⟨hname', -, hts⟩ := hts
      obtain ⟨ps, hps, hps'⟩ := ih hts hids
      exact ⟨_, .parameters hname hcomma hps, Token.AlikeEach.cons hname' hps'⟩
  | exprStatement _ ih =>
      obtain ⟨s, hs, hs'⟩ := ih hts hids
      exact ⟨s, .exprStatement hs, hs'⟩
  | forStatement hkeyword hlparen _ hcondition hsemicolon hincrement hrparen hbody hform
      ih ih₂ ih₃ ih₄ =>
      have hids₃ := hids.of_le hbody.numbered.le
      have hids₂ := hids₃.of_le hincrement.numbered.le
      obtain ⟨hts, -, hws⟩ := Likeness.moves_append.mp hts
      obtain ⟨hts, -, hvs⟩ := Likeness.moves_append.mp hts
      obtain ⟨⟨-, -, hts⟩, hus⟩ := Likeness.moves_append.mp hts
      obtain ⟨init, hi, hi'⟩ := ih hts (hids₂.of_le hcondition.numbered.le)
      obtain ⟨condition, hc, hc'⟩ := ih₂ hus hids₂
      obtain ⟨increment, hn, hn'⟩ := ih₃ hvs hids₃
      obtain ⟨body, hb, hb'⟩ := ih₄ hws hids
      obtain ⟨s, hs, hs'⟩ := hform.alike hi' hc' hn' hb'
      rw [Token.moveEach_append, Token.moveEach_append, Token.moveEach_append]
      exact ⟨s, .forStatement hkeyword hlparen hi hc hsemicolon hn hrparen hb hs, hs'⟩
  | ifThen dangling hkeyword hlparen _ hrparen hthen ih ih₂ =>
      obtain ⟨⟨-, -, hts⟩, -, hus⟩ := Likeness.moves_append.mp hts
      obtain ⟨e, he, he'⟩ := ih hts (hids.of_le hthen.numbered.le)
      obtain ⟨s, hs, hs'⟩ := ih₂ hus hids
      rw [Token.moveEach_append]
      exact ⟨_, .ifThen dangling hkeyword hlparen he hrparen hs, Stmt.Alike.ifThen he' hs'⟩
  | ifElse hkeyword hlparen _ hrparen hthen hotherwise helse ih ih₂ ih₃ =>
      have hids₂ := hids.of_le helse.numbered.le
      obtain ⟨hts, -, hvs⟩ := Likeness.moves_append.mp hts
      obtain ⟨⟨-, -, hts⟩, -, hus⟩ := Likeness.moves_append.mp hts
      obtain ⟨e, he, he'⟩ := ih hts (hids₂.of_le hthen.numbered.le)
      obtain ⟨s, hs, hs'⟩ := ih₂ hus hids₂
      obtain ⟨u, hu, hu'⟩ := ih₃ hvs hids
      rw [Token.moveEach_append, Token.moveEach_append]
      exact ⟨_, .ifElse hkeyword hlparen he hrparen hs hotherwise hu,
        Stmt.Alike.ifElse he' hs' hu'⟩
  | print hkeyword _ hsemicolon ih =>
      obtain ⟨⟨-, hts⟩, -⟩ := Likeness.moves_append.mp hts
      obtain ⟨e, he, he'⟩ := ih hts hids
      rw [Token.moveEach_append]
      exact ⟨_, .print hkeyword he hsemicolon, Stmt.Alike.print he'⟩
  | ret hkeyword _ hsemicolon ih =>
      obtain ⟨⟨hkeyword', hts⟩, -⟩ := Likeness.moves_append.mp hts
      obtain ⟨e, he, he'⟩ := ih hts hids
      rw [Token.moveEach_append]
      exact ⟨_, .ret hkeyword he hsemicolon, Stmt.Alike.ret hkeyword' he'⟩
  | whileStatement hkeyword hlparen _ hrparen hbody ih ih₂ =>
      obtain ⟨⟨-, -, hts⟩, -, hus⟩ := Likeness.moves_append.mp hts
      obtain ⟨e, he, he'⟩ := ih hts (hids.of_le hbody.numbered.le)
      obtain ⟨s, hs, hs'⟩ := ih₂ hus hids
      rw [Token.moveEach_append]
      exact ⟨_, .whileStatement hkeyword hlparen he hrparen hs, Stmt.Alike.loop he' hs'⟩
  | block hlbrace _ hrbrace ih =>
      obtain ⟨⟨-, hts⟩, -⟩ := Likeness.moves_append.mp hts
      obtain ⟨ss, hss, hss'⟩ := ih hts hids
      rw [Token.moveEach_append]
      exact ⟨_, .block hlbrace hss hrbrace, Stmt.Alike.block hss'⟩
  | exprStmt _ hsemicolon ih =>
      obtain ⟨hts, -⟩ := Likeness.moves_append.mp hts
      obtain ⟨e, he, he'⟩ := ih hts hids
      rw [Token.moveEach_append]
      exact ⟨_, .exprStmt he hsemicolon, Stmt.Alike.expression he'⟩
  | forVar _ ih =>
      obtain ⟨s, hs, hs'⟩ := ih hts hids
      exact ⟨_, .forVar hs, .some hs'⟩
  | forExpr _ ih =>
      obtain ⟨s, hs, hs'⟩ := ih hts hids
      exact ⟨_, .forExpr hs, .some hs'⟩
  | forNone hsemicolon => exact ⟨_, .forNone hsemicolon, .none⟩
  | absent => exact ⟨_, .absent, .none⟩
  | present _ ih =>
      obtain ⟨e, he, he'⟩ := ih hts hids
      exact ⟨_, .present he, .some he'⟩
  | assign hname hequal hvalue ih =>
      obtain ⟨hname', -, hts⟩ := hts
      obtain ⟨e, he, he'⟩ := ih hts hids
      exact ⟨_, .assign hname hequal he,
        Expr.Alike.assign (hids _ hvalue.numbered.le) hname' he'⟩
  | set _ hdot hname hequal hvalue ih ih₂ =>
      obtain ⟨hts, -, hname', -, hus⟩ := Likeness.moves_append.mp hts
      obtain ⟨e, he, he'⟩ := ih hts (hids.of_le hvalue.numbered.le)
      obtain ⟨u, hu, hu'⟩ := ih₂ hus hids
      rw [Token.moveEach_append]
      exact ⟨_, .set he hdot hname hequal hu, Expr.Alike.set he' hname' hu'⟩
  | operation _ ih =>
      obtain ⟨e, he, he'⟩ := ih hts hids
      exact ⟨e, .operation he, he'⟩
  | operand _ ih =>
      obtain ⟨e, he, he'⟩ := ih hts hids
      exact ⟨e, .operand he, he'⟩
  | tighter _ ih =>
      obtain ⟨e, he, he'⟩ := ih hts hids
      exact ⟨e, .tighter he, he'⟩
  | join _ hright hjoins ih ih₂ =>
      obtain ⟨hts, hoperator', hus⟩ := Likeness.moves_append.mp hts
      obtain ⟨e, he, he'⟩ := ih hts (hids.of_le hright.numbered.le)
      obtain ⟨u, hu, hu'⟩ := ih₂ hus hids
      obtain ⟨joined, hj, hj'⟩ := hjoins.moved he' hoperator' hu'
      rw [Token.moveEach_append]
      exact ⟨joined, .join he hu hj, hj'⟩
  | unary hoperator _ ih =>
      obtain ⟨hoperator', hts⟩ := hts
      obtain ⟨e, he, he'⟩ := ih hts hids
      exact ⟨_, .unary hoperator he, Expr.Alike.unary hoperator' he'⟩
  | call _ ih =>
      obtain ⟨e, he, he'⟩ := ih hts hids
      exact ⟨e, .call he, he'⟩
  | callee _ ih =>
      obtain ⟨e, he, he'⟩ := ih hts hids
      exact ⟨e, .callee he, he'⟩
  | callBare _ hlparen hrparen ih =>
      obtain ⟨hts, -, hrparen', -⟩ := Likeness.moves_append.mp hts
      obtain ⟨e, he, he'⟩ := ih hts hids
      rw [Token.moveEach_append]
      exact ⟨_, .callBare he hlparen hrparen, Expr.Alike.call he' hrparen' .nil⟩
  | callWith _ hlparen harguments hlength hrparen ih ih₂ =>
      obtain ⟨hts, hrparen', -⟩ := Likeness.moves_append.mp hts
      obtain ⟨hts, -, hus⟩ := Likeness.moves_append.mp hts
      obtain ⟨e, he, he'⟩ := ih hts (hids.of_le harguments.numbered.le)
      obtain ⟨es, hes, hes'⟩ := ih₂ hus hids
      rw [Token.moveEach_append, Token.moveEach_append]
      exact ⟨_, .callWith he hlparen hes (Expr.AlikeEach.length_eq hes' ▸ hlength) hrparen,
        Expr.Alike.call he' hrparen' hes'⟩
  | get _ hdot hname ih =>
      obtain ⟨hts, -, hname', -⟩ := Likeness.moves_append.mp hts
      obtain ⟨e, he, he'⟩ := ih hts hids
      rw [Token.moveEach_append]
      exact ⟨_, .get he hdot hname, Expr.Alike.get he' hname'⟩
  | argument _ ih =>
      obtain ⟨e, he, he'⟩ := ih hts hids
      exact ⟨_, .argument he, Expr.AlikeEach.cons he' .nil⟩
  | arguments _ hcomma hrest ih ih₂ =>
      obtain ⟨hts, -, hus⟩ := Likeness.moves_append.mp hts
      obtain ⟨e, he, he'⟩ := ih hts (hids.of_le hrest.numbered.le)
      obtain ⟨es, hes, hes'⟩ := ih₂ hus hids
      rw [Token.moveEach_append]
      exact ⟨_, .arguments he hcomma hes, Expr.AlikeEach.cons he' hes'⟩
  | number hkind => exact ⟨_, .number hkind, Expr.Alike.literal _⟩
  | string hkind => exact ⟨_, .string hkind, Expr.Alike.literal _⟩
  | trueWord hkind => exact ⟨_, .trueWord hkind, Expr.Alike.literal _⟩
  | falseWord hkind => exact ⟨_, .falseWord hkind, Expr.Alike.literal _⟩
  | nilWord hkind => exact ⟨_, .nilWord hkind, Expr.Alike.literal _⟩
  | this hkind =>
      exact ⟨_, .this hkind, Expr.Alike.this (hids _ (Nat.lt_succ_self _)) hts.1⟩
  | reference hkind =>
      exact ⟨_, .reference hkind, Expr.Alike.variable (hids _ (Nat.lt_succ_self _)) hts.1⟩
  | grouping hlparen _ hrparen ih =>
      obtain ⟨⟨-, hts⟩, -⟩ := Likeness.moves_append.mp hts
      obtain ⟨e, he, he'⟩ := ih hts hids
      rw [Token.moveEach_append]
      exact ⟨_, .grouping hlparen he hrparen, Expr.Alike.grouping he'⟩
  | super hkeyword hdot hmethod =>
      exact ⟨_, .super hkeyword hdot hmethod,
        Expr.Alike.super (hids _ (Nat.lt_succ_self _)) hts.1 hts.2.2.1⟩

/-- A phrase moved down stands for a tree that is alike, with the same ids. -/
theorem Derives.down {l : Likeness} {x : Symbol} {i j : ExprId} {ts : List Token} {a : x.Tree}
    (h : Derives x i ts a j) {lines : Nat} (hts : ∀ t ∈ ts, l.token t (t.down lines))
    (hids : l.Below j) : ∃ a', Derives x i (ts.map (·.down lines)) a' j ∧ x.Alike l a a' := by
  have hmoves : l.Moves (fun _ t => t.line + lines) 0 ts := Likeness.moves_const hts 0
  obtain ⟨a', ha, ha'⟩ := h.moved hmoves hids
  rw [Token.moveEach_const] at ha
  exact ⟨a', ha, ha'⟩

/-- Declarations after declarations. -/
theorem Derives.append {i j k : ExprId} : {ts us : List Token} → {ss : List Stmt} →
    {ss' : List Stmt} → Derives .declarations i ts ss j → Derives .declarations j us ss' k →
    Derives .declarations i (ts ++ us) (ss ++ ss') k
  | _, _, _, _, .noDeclarations, h => h
  | _, _, _, _, .declarations hd hrest, h => by
      rw [List.append_assoc]
      exact .declarations hd (hrest.append h)

end ScriptLang
