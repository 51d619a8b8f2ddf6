import ScriptLang.Proofs.Grammar.Recognition
import ScriptLang.Proofs.Numbering.Phrases

/-! `for` loops as `while` loops. A loop `for (init condition; increment) body` in a phrase can be
written as `{ init while (condition) { body increment; } }`: the tokens are still a phrase, and the
tree is the same but for the ids of the body and the increment, which change places. -/

namespace ScriptLang

/-! ### Loops as tokens -/

/-- The tokens are a phrase of the symbol. -/
def Symbol.Phrase (x : Symbol) (ts : List Token) : Prop := ∃ i a j, Derives x i ts a j

/-- The tokens of a loop `for (init condition; increment) body`. The initializer is a variable, an
expression or nothing, with its semicolon; condition and increment may be empty. -/
structure ForLoop where
  keyword : Token
  lparen : Token
  init : List Token
  condition : List Token
  semicolon : Token
  increment : List Token
  rparen : Token
  body : List Token
  /-- Whether an `else` after the loop would belong to its body. -/
  dangling : Bool
  keyword_kind : keyword.kind = .kwFor
  lparen_kind : lparen.kind = .leftParen
  init_phrase : Symbol.forInit.Phrase init
  condition_phrase : Symbol.optional.Phrase condition
  semicolon_kind : semicolon.kind = .semicolon
  increment_phrase : Symbol.optional.Phrase increment
  rparen_kind : rparen.kind = .rightParen
  body_phrase : (Symbol.statement dangling).Phrase body

/-- A token of a given kind. -/
abbrev Kind.Mark (kind : Kind) : Type := { t : Token // t.kind = kind }

/-- The tokens that are added where a loop is written with `while`. -/
structure WhileMarks where
  keyword : Kind.kwWhile.Mark
  lparen : Kind.leftParen.Mark
  always : Kind.kwTrue.Mark
  rparen : Kind.rightParen.Mark
  innerLeft : Kind.leftBrace.Mark
  semicolon : Kind.semicolon.Mark
  innerRight : Kind.rightBrace.Mark
  outerLeft : Kind.leftBrace.Mark
  outerRight : Kind.rightBrace.Mark

namespace WhileMarks

variable (m : WhileMarks)

/-- A condition that is left out is `true`. -/
def test : List Token → List Token
  | [] => [m.always.1]
  | condition => condition

/-- Braces stand around the body only for an increment. -/
def inner : List Token → List Token → List Token
  | [], body => body
  | increment, body => m.innerLeft.1 :: body ++ increment ++ [m.semicolon.1, m.innerRight.1]

def loop (condition increment body : List Token) : List Token :=
  m.keyword.1 :: m.lparen.1 :: m.test condition ++ m.rparen.1 :: m.inner increment body

/-- Braces stand around the loop unless the initializer is only a semicolon. -/
def outer : List Token → List Token → List Token
  | [_], loop => loop
  | init, loop => m.outerLeft.1 :: init ++ loop ++ [m.outerRight.1]

end WhileMarks

namespace ForLoop

variable (loop : ForLoop)

def tokens : List Token :=
  loop.keyword :: loop.lparen :: loop.init ++ loop.condition ++
    loop.semicolon :: loop.increment ++ loop.rparen :: loop.body

/-- The loop as `{ init while (condition) { body increment; } }`. -/
def unfolded (m : WhileMarks) : List Token :=
  m.outer loop.init (m.loop loop.condition loop.increment loop.body)

/-- What follows the loop does not go on with it. -/
def Ends (post : List Token) : Prop := loop.dangling = true → Stops (· = .kwElse) post

end ForLoop

/-! ### Ids that change places -/

/-- The ids from `k` up to `l` and those from `l` up to `m` change places. -/
def swapBlocks {k l m : Nat} (hkl : k ≤ l) (hlm : l ≤ m) : Equiv.Perm Nat where
  toFun id := if id < k ∨ m ≤ id then id else if id < l then id + (m - l) else id - (l - k)
  invFun id := if id < k ∨ m ≤ id then id else if id < k + (m - l) then id + (l - k)
    else id - (m - l)
  left_inv id := by grind
  right_inv id := by grind

section SwapBlocks

variable {k l m : Nat} {hkl : k ≤ l} {hlm : l ≤ m}

theorem swapBlocks_of_outside {id : Nat} (h : id < k ∨ m ≤ id) : swapBlocks hkl hlm id = id :=
  if_pos h

theorem swapBlocks_shifts_left :
    Shifts (swapBlocks hkl hlm) k l (k + (m - l)) m := by
  refine ⟨by omega, fun id hk hl => ?_⟩
  have hid : swapBlocks hkl hlm id = id + (m - l) :=
    (if_neg (by omega)).trans (if_pos hl)
  omega

theorem swapBlocks_shifts_right :
    Shifts (swapBlocks hkl hlm) l m k (k + (m - l)) := by
  refine ⟨by omega, fun id hl hm => ?_⟩
  have hid : swapBlocks hkl hlm id = id - (l - k) :=
    (if_neg (by omega)).trans (if_neg (Nat.not_lt.mpr hl))
  omega

end SwapBlocks

/-! ### One loop -/

section Loop

variable {i j k l n : ExprId} {ts us vs ws : List Token} {dangling : Bool} (m : WhileMarks)

theorem Derives.test {condition : Option Expr} (h : Derives .optional i ts condition j) :
    Derives .expression i (m.test ts) (condition.getD (.literal (.bool true))) j := by
  cases h with
  | absent => exact .of_primary (.trueWord m.always.2)
  | present h =>
      have hts : ts ≠ [] := h.opens.2 rfl
      cases ts with
      | nil => exact absurd rfl hts
      | cons t ts => exact h

/-- The body and the increment, one after the other. -/
theorem Derives.inner {body : Stmt} {increment : Option Expr}
    (hbody : Derives (.statement dangling) i ws body j)
    (hincrement : Derives .optional j vs increment k) :
    ∃ d s, (d = true → dangling = true) ∧ Derives (.statement d) i (m.inner vs ws) s k ∧
      ∀ condition, Stmt.forLoop none condition increment body =
        .loop (condition.getD (.literal (.bool true))) s := by
  cases hincrement with
  | absent => exact ⟨dangling, body, id, hbody, fun _ => rfl⟩
  | @present _ _ e _ h =>
      have hvs : vs ≠ [] := h.opens.2 rfl
      have hincrement : Derives .exprStmt j (vs ++ [m.semicolon.1]) (.expression e) k :=
        .exprStmt h m.semicolon.2
      have hblock : Derives .declarations i (ws ++ (vs ++ [m.semicolon.1] ++ []))
          [body, .expression e] k :=
        .declarations (.statement dangling hbody) <|
          .declarations (.statement false (.exprStatement hincrement)) .noDeclarations
      refine ⟨false, .block [body, .expression e], nofun, ?_, fun _ => rfl⟩
      cases vs with
      | nil => exact absurd rfl hvs
      | cons v vs => simpa [WhileMarks.inner] using hblock.block m.innerLeft.2 m.innerRight.2

/-- An initializer is a declaration. -/
theorem Derives.declaration_of_init {s : Stmt} (h : Derives .forInit i ts (some s) j) :
    Derives .declaration i ts s j := by
  cases h with
  | forVar h => exact .varDecl h
  | forExpr h => exact .statement false (.exprStatement h)

theorem Derives.outer_eq {s : Stmt} (h : Derives .forInit i ts (some s) j) (loop : List Token) :
    m.outer ts loop = m.outerLeft.1 :: ts ++ loop ++ [m.outerRight.1] := by
  cases h with
  | forVar h => cases h <;> rfl
  | forExpr h =>
      cases h with
      | @exprStmt _ ts _ _ _ h =>
          have hts : ts ≠ [] := h.opens.2 rfl
          match ts, hts with
          | [_], _ => rfl
          | _ :: _ :: _, _ => rfl

/-- The parts of a `for` loop, the increment after the body, make the same statement with `while`.
An `else` after it belongs to it only if one after the `for` loop does. -/
theorem Derives.unfolded {init : Option Stmt} {condition increment : Option Expr} {body s : Stmt}
    (hinit : Derives .forInit i ts init j) (hcondition : Derives .optional j us condition k)
    (hbody : Derives (.statement dangling) k ws body l)
    (hincrement : Derives .optional l vs increment n)
    (hform : Stmt.ForForm init condition increment body s) :
    ∃ d, (d = true → dangling = true) ∧
      Derives (.statement d) i (m.outer ts (m.loop us vs ws)) s n := by
  obtain ⟨d, round, hd, hinner, heq⟩ := hbody.inner m hincrement
  have hloop : Derives (.statement d) j (m.loop us vs ws)
      (.forLoop none condition increment body) n := by
    rw [heq]
    exact .whileStatement m.keyword.2 m.lparen.2 (hcondition.test m) m.rparen.2 hinner
  rw [Stmt.forForm_iff.mp hform]
  cases init with
  | none =>
      cases hinit with
      | forNone => exact ⟨d, hd, hloop⟩
  | some t =>
      refine ⟨false, nofun, ?_⟩
      have hblock := Derives.declarations hinit.declaration_of_init
        (.declarations (.statement d hloop) .noDeclarations)
      have hsome : Stmt.forLoop (some t) condition increment body =
          .block [t, .forLoop none condition increment body] := rfl
      rw [hsome, hinit.outer_eq m]
      simpa using hblock.block m.outerLeft.2 m.outerRight.2

end Loop

/-! ### Phrases without loops -/

/-- The symbols of whose phrases no statement is a part. -/
def Symbol.isPlain : Symbol → Bool
  | .varDecl | .parameters | .exprStmt | .forInit | .optional | .expression | .operation _
  | .unary | .call | .arguments | .primary => true
  | _ => false

/-- Tokens without the keyword of a loop. -/
def NoLoop (ts : List Token) : Prop := ∀ t ∈ ts, t.kind ≠ .kwFor

theorem noLoop_nil : NoLoop [] := nofun

theorem noLoop_cons {t : Token} {ts : List Token} :
    NoLoop (t :: ts) ↔ t.kind ≠ .kwFor ∧ NoLoop ts := List.forall_mem_cons

theorem noLoop_rightBrace {t : Token} (h : t.kind = .rightBrace) : NoLoop [t] := by
  simp [NoLoop, h]

theorem noLoop_append {ts us : List Token} : NoLoop (ts ++ us) ↔ NoLoop ts ∧ NoLoop us :=
  List.forall_mem_append

theorem Level.Joins.kind_ne {level : Level} {left right e : Expr} {operator : Token}
    (h : level.Joins left operator right e) :
    operator.kind ≠ .kwFor ∧ operator.kind ≠ .eof := by
  have haccepts := (Level.joins_iff.mp h).1
  constructor <;> intro hkind <;> rw [hkind] at haccepts <;> cases level <;> cases haccepts

theorem Derives.noLoop {x : Symbol} {i j : ExprId} {ts : List Token} {a : x.Tree}
    (h : Derives x i ts a j) (hx : x.isPlain = true) : NoLoop ts := by
  induction h with
  | join _ _ hjoins ih ih₂ =>
      exact noLoop_append.mpr ⟨ih rfl, noLoop_cons.mpr ⟨hjoins.kind_ne.1, ih₂ rfl⟩⟩
  | unary hoperator _ ih =>
      refine noLoop_cons.mpr ⟨?_, ih rfl⟩
      rcases hoperator with hoperator | hoperator <;> simp [hoperator]
  | _ => simp_all [Symbol.isPlain, noLoop_cons, noLoop_append, noLoop_nil]

/-- The end token is in no phrase. -/
theorem Derives.isEof_eq_false {x : Symbol} {i j : ExprId} {ts : List Token} {a : x.Tree}
    (h : Derives x i ts a j) : ∀ t ∈ ts, t.isEof = false := by
  induction h with
  | join _ _ hjoins ih ih₂ => simp_all [Token.isEof, or_imp, hjoins.kind_ne.2]
  | unary hoperator _ ih =>
      rcases hoperator with hoperator | hoperator <;> simp_all [Token.isEof]
  | _ => simp_all [Token.isEof, or_imp]

/-! ### Loops in phrases -/

/-- Whether a phrase may end in a statement to which an `else` after it would belong. -/
def Symbol.dangles : Symbol → Bool
  | .statement dangling => dangling
  | .declaration | .declarations => true
  | _ => false

/-- A phrase of `x` may go on like this after a loop to which an `else` would belong. -/
def Symbol.Allows (x : Symbol) (post : List Token) : Prop :=
  (post = [] → x.dangles = true) ∧ Stops (· = .kwElse) post

theorem Symbol.Allows.nil {x : Symbol} (h : x.dangles = true) : x.Allows [] :=
  ⟨fun _ => h, nofun⟩

theorem Symbol.Allows.rightBrace {x : Symbol} {t : Token} (h : t.kind = .rightBrace) :
    x.Allows [t] :=
  ⟨nofun, .cons (by simp [h]) []⟩

theorem Symbol.Allows.append {x y : Symbol} {post back : List Token} (h : y.Allows post)
    (hback : y.dangles = true → x.Allows back) : x.Allows (post ++ back) := by
  cases post with
  | nil => exact hback (h.1 rfl)
  | cons t post => exact ⟨nofun, h.2⟩

/-- The tokens are a phrase of the symbol. Where a statement may dangle, one that does not will
do. -/
def Symbol.Reads : (x : Symbol) → ExprId → List Token → x.Tree → ExprId → Prop
  | .statement dangling, i, ts, s, j =>
      ∃ d, (d = true → dangling = true) ∧ Derives (.statement d) i ts s j
  | x, i, ts, a, j => Derives x i ts a j

/-- Ids that stay, except between `i` and `j`. -/
def StaysOutside (σ : Equiv.Perm ExprId) (i j : ExprId) : Prop :=
  ∀ id, id < i ∨ j ≤ id → σ id = id

theorem StaysOutside.mono {σ : Equiv.Perm ExprId} {i j i' j' : Nat} (h : StaysOutside σ i' j')
    (hi : i ≤ i') (hj : j' ≤ j) : StaysOutside σ i j :=
  fun id hid => h id (hid.imp (Nat.lt_of_lt_of_le · hi) (Nat.le_trans hj))

theorem StaysOutside.before {σ : Equiv.Perm ExprId} {i j k : Nat} (h : StaysOutside σ j k) :
    Shifts σ i j i j :=
  .of_fixed fun id _ hid => h id (.inl hid)

theorem StaysOutside.after {σ : Equiv.Perm ExprId} {i j k : Nat} (h : StaysOutside σ i j) :
    Shifts σ j k j k :=
  .of_fixed fun id hid _ => h id (.inr hid)

/-- A phrase has a loop after the tokens `pre`, and stays a phrase if the loop is written with
`while`. -/
def Unfolds (x : Symbol) (i : ExprId) (a : x.Tree) (j : ExprId) (pre rest : List Token) : Prop :=
  ∃ (loop : ForLoop) (post : List Token), rest = loop.tokens ++ post ∧
    (loop.dangling = true → x.Allows post) ∧ ∀ m : WhileMarks, ∃ σ : Equiv.Perm ExprId,
      StaysOutside σ i j ∧ x.Reads i (pre ++ loop.unfolded m ++ post) (x.renumber σ a) j

/-- Every loop that begins in the middle one of three parts can be written with `while`. -/
def UnfoldsIn (x : Symbol) (i : ExprId) (a : x.Tree) (j : ExprId) (front ts back : List Token) :
    Prop :=
  ∀ pre keyword rest, keyword.kind = .kwFor → ts = pre ++ keyword :: rest →
    Unfolds x i a j (front ++ pre) (keyword :: rest ++ back)

namespace UnfoldsIn

variable {x y : Symbol} {i j i' j' : ExprId} {a : x.Tree} {b : y.Tree}
  {front ts us back : List Token}

theorem of_noLoop (h : NoLoop ts) : UnfoldsIn x i a j front ts back := by
  rintro pre keyword rest hkeyword rfl
  exact absurd hkeyword (h keyword (by simp))

theorem append (h : UnfoldsIn x i a j front ts (us ++ back))
    (h' : UnfoldsIn x i a j (front ++ ts) us back) :
    UnfoldsIn x i a j front (ts ++ us) back := by
  intro pre keyword rest hkeyword heq
  rcases List.append_eq_append_iff.mp heq with ⟨pre', rfl, hus⟩ | ⟨rest', hts, hrest⟩
  · rw [← List.append_assoc]
    exact h' pre' keyword rest hkeyword hus
  · cases rest' with
    | nil =>
        have hus : us = [] ++ keyword :: rest := hrest.symm
        have hpre : pre = ts := by simpa using hts.symm
        subst hpre
        simpa using h' [] keyword rest hkeyword hus
    | cons k rest' =>
        obtain ⟨rfl, rfl⟩ := List.cons.inj hrest
        simpa using h pre keyword rest' hkeyword hts

/-- Loops in a part of a phrase. -/
theorem lift (h : UnfoldsIn y i' b j' [] ts []) (hi : i ≤ i') (hj : j' ≤ j)
    (hback : y.dangles = true → x.Allows back)
    (hbuild : ∀ {σ : Equiv.Perm ExprId} {ts}, StaysOutside σ i' j' →
      y.Reads i' ts (y.renumber σ b) j' →
      x.Reads i (front ++ ts ++ back) (x.renumber σ a) j) :
    UnfoldsIn x i a j front ts back := by
  intro pre keyword rest hkeyword hts
  obtain ⟨loop, post, hrest, hpost, hunfold⟩ := h pre keyword rest hkeyword hts
  refine ⟨loop, post ++ back, ?_, fun hdangling => (hpost hdangling).append hback, fun m => ?_⟩
  · rw [List.append_nil] at hrest
    rw [hrest, List.append_assoc]
  · obtain ⟨σ, hσ, hread⟩ := hunfold m
    exact ⟨σ, hσ.mono hi hj, by simpa using hbuild hσ hread⟩

/-- Loops in the only part of a phrase that has some. -/
theorem enclose (h : UnfoldsIn y i' b j' [] ts []) (around : List Token → List Token)
    (hi : i ≤ i') (hj : j' ≤ j) (front back : List Token)
    (haround : ∀ ts, around ts = front ++ ts ++ back) (hfront : NoLoop front)
    (hnone : NoLoop back) (hback : y.dangles = true → x.Allows back)
    (hbuild : ∀ {σ : Equiv.Perm ExprId} {ts}, StaysOutside σ i' j' →
      y.Reads i' ts (y.renumber σ b) j' → x.Reads i (around ts) (x.renumber σ a) j) :
    UnfoldsIn x i a j [] (around ts) [] := by
  rw [haround]
  refine append (append (of_noLoop hfront) ?_) (of_noLoop hnone)
  rw [List.append_nil]
  refine h.lift hi hj hback fun hσ hread => ?_
  rw [List.nil_append, ← haround]
  exact hbuild hσ hread

end UnfoldsIn

/-- Declarations do not begin with `else`. -/
theorem Derives.stops_else {i j : ExprId} {ts : List Token} {ss : List Stmt}
    (h : Derives .declarations i ts ss j) : Stops (· = .kwElse) ts := by
  intro t ht
  have hbegins := h.opens.1 t ht
  refine decide_eq_false fun hkind => ?_
  rw [hkind] at hbegins
  cases hbegins

section Parts

variable {i j k l n : ExprId} {keyword lparen semicolon rparen : Token}
  {ts us vs ws : List Token} {dangling : Bool}

/-- A loop at the front of a phrase. Its body and its increment change places. -/
theorem Derives.unfolds_loop {init : Option Stmt} {condition increment : Option Expr}
    {body s : Stmt} (hkeyword : keyword.kind = .kwFor) (hlparen : lparen.kind = .leftParen)
    (hinit : Derives .forInit i ts init j) (hcondition : Derives .optional j us condition k)
    (hsemicolon : semicolon.kind = .semicolon) (hincrement : Derives .optional k vs increment l)
    (hrparen : rparen.kind = .rightParen) (hbody : Derives (.statement dangling) l ws body n)
    (hform : Stmt.ForForm init condition increment body s) :
    Unfolds (.statement dangling) i s n []
      (keyword :: lparen :: ts ++ us ++ semicolon :: vs ++ rparen :: ws) := by
  let loop : ForLoop :=
    ⟨keyword, lparen, ts, us, semicolon, vs, rparen, ws, dangling, hkeyword, hlparen,
      ⟨_, _, _, hinit⟩, ⟨_, _, _, hcondition⟩, hsemicolon, ⟨_, _, _, hincrement⟩, hrparen,
      ⟨_, _, _, hbody⟩⟩
  let σ := swapBlocks hincrement.numbered.le hbody.numbered.le
  have hσ : StaysOutside σ k n := fun id hid => swapBlocks_of_outside hid
  have hj : i ≤ j := hinit.numbered.le
  have hk : j ≤ k := hcondition.numbered.le
  refine ⟨loop, [], (List.append_nil _).symm, fun hdangling => .nil hdangling, fun m =>
    ⟨σ, hσ.mono (Nat.le_trans hj hk) (Nat.le_refl n), ?_⟩⟩
  rw [List.nil_append, List.append_nil]
  exact Derives.unfolded m (hinit.renumber ((hσ.mono hk (Nat.le_refl n)).before))
    (hcondition.renumber hσ.before) (hbody.renumber swapBlocks_shifts_right)
    (hincrement.renumber swapBlocks_shifts_left) (hform.renumber σ)

theorem Derives.noLoop_head {e : Expr} (h : Derives .expression i ts e j) {kind : Kind}
    (hkeyword : keyword.kind = kind) (hkind : kind ≠ .kwFor) (hlparen : lparen.kind = .leftParen)
    (hrparen : rparen.kind = .rightParen) : NoLoop (keyword :: lparen :: ts ++ [rparen]) := by
  simp [noLoop_cons, noLoop_append, noLoop_nil, hkeyword, hkind, hlparen, h.noLoop rfl, hrparen]

/-- The loops of a `for` loop are itself and those of its body. -/
theorem UnfoldsIn.forStatement {init : Option Stmt} {condition increment : Option Expr}
    {body s : Stmt} (h : UnfoldsIn (.statement dangling) l body n [] ws [])
    (hkeyword : keyword.kind = .kwFor) (hlparen : lparen.kind = .leftParen)
    (hinit : Derives .forInit i ts init j) (hcondition : Derives .optional j us condition k)
    (hsemicolon : semicolon.kind = .semicolon) (hincrement : Derives .optional k vs increment l)
    (hrparen : rparen.kind = .rightParen) (hbody : Derives (.statement dangling) l ws body n)
    (hform : Stmt.ForForm init condition increment body s) :
    UnfoldsIn (.statement dangling) i s n []
      (keyword :: lparen :: ts ++ us ++ semicolon :: vs ++ rparen :: ws) [] := by
  let head := lparen :: ts ++ us ++ semicolon :: vs ++ [rparen]
  have hhead : NoLoop head := by
    simp [head, noLoop_cons, noLoop_append, noLoop_nil, hlparen, hinit.noLoop rfl,
      hcondition.noLoop rfl, hsemicolon, hincrement.noLoop rfl, hrparen]
  have htokens (ws : List Token) :
      keyword :: lparen :: ts ++ us ++ semicolon :: vs ++ rparen :: ws =
        [keyword] ++ (head ++ ws) := by simp [head]
  rw [htokens]
  refine .append ?_ (.append (.of_noLoop hhead) ?_)
  · intro pre first rest hfirst heq
    have hloop := hinit.unfolds_loop hkeyword hlparen hcondition hsemicolon hincrement hrparen hbody
      hform
    rw [htokens] at hloop
    cases pre with
    | nil =>
        cases heq
        rw [List.append_nil, List.append_nil]
        exact hloop
    | cons p pre => simp at heq
  · have hk := hincrement.numbered.le
    have hj := Nat.le_trans hcondition.numbered.le hk
    refine h.lift (Nat.le_trans hinit.numbered.le hj) (Nat.le_refl n) .nil ?_
    rintro σ ws hσ ⟨d, hd, hs⟩
    rw [List.nil_append, List.append_nil, List.append_assoc, ← htokens]
    exact ⟨d, hd, .forStatement hkeyword hlparen
      (hinit.renumber (hσ.mono hj (Nat.le_refl n)).before)
      (hcondition.renumber (hσ.mono hk (Nat.le_refl n)).before) hsemicolon
      (hincrement.renumber hσ.before) hrparen hs (hform.renumber σ)⟩

/-- The branch before an `else` still does not dangle if a loop in it is written with `while`. -/
theorem UnfoldsIn.ifElse {otherwise : Token} {condition : Expr} {s u : Stmt}
    (h : UnfoldsIn (.statement false) j s k [] us []) (hkeyword : keyword.kind = .kwIf)
    (hlparen : lparen.kind = .leftParen) (hcondition : Derives .expression i ts condition j)
    (hrparen : rparen.kind = .rightParen) (hs : Derives (.statement false) j us s k)
    (hotherwise : otherwise.kind = .kwElse) (hu : Derives (.statement dangling) k vs u l)
    (h' : UnfoldsIn (.statement dangling) k u l [] vs []) :
    UnfoldsIn (.statement dangling) i (.ifElse condition s u) l []
      (keyword :: lparen :: ts ++ rparen :: us ++ otherwise :: vs) [] := by
  have hfront := hcondition.noLoop_head hkeyword nofun hlparen hrparen
  have htokens (us vs : List Token) : keyword :: lparen :: ts ++ rparen :: us ++ otherwise :: vs =
      (keyword :: lparen :: ts ++ [rparen]) ++ us ++ ([otherwise] ++ vs) := by simp
  rw [htokens]
  refine .append (.append (.of_noLoop hfront) ?_) (.append (.of_noLoop ?_) ?_)
  · refine h.lift hcondition.numbered.le hu.numbered.le nofun ?_
    rintro σ us hσ ⟨d, hd, hs⟩
    rw [List.nil_append, List.append_nil, ← htokens]
    obtain rfl : d = false := Bool.eq_false_iff.mpr fun h => Bool.false_ne_true (hd h)
    exact ⟨dangling, id, .ifElse hkeyword hlparen (hcondition.renumber hσ.before) hrparen hs
      hotherwise (hu.renumber hσ.after)⟩
  · simp [NoLoop, hotherwise]
  · refine h'.lift (Nat.le_trans hcondition.numbered.le hs.numbered.le) (Nat.le_refl l) .nil ?_
    rintro σ vs hσ ⟨d, hd, hu⟩
    rw [List.nil_append, List.append_nil, List.append_assoc, ← htokens]
    exact ⟨d, hd, .ifElse hkeyword hlparen
      (hcondition.renumber (hσ.mono hs.numbered.le (Nat.le_refl l)).before) hrparen
      (hs.renumber hσ.before) hotherwise hu⟩

end Parts

/-- All loops in a phrase can be written with `while`. -/
theorem Derives.unfoldsIn {x : Symbol} {i j : ExprId} {ts : List Token} {a : x.Tree}
    (h : Derives x i ts a j) (hx : x.isPlain = false) : UnfoldsIn x i a j [] ts [] := by
  -- The loop takes up as many ids as before, so the parts around it keep theirs.
  induction h with
  | noDeclarations | noFunctions => exact .of_noLoop noLoop_nil
  | declarations hs hss ih ihs =>
      refine .append ?_ ?_
      · refine (ih rfl).lift (Nat.le_refl _) hss.numbered.le (fun _ => ?_) fun hσ hread => ?_
        · rw [List.append_nil]
          exact ⟨fun _ => rfl, hss.stops_else⟩
        · rw [List.append_nil]
          exact Derives.declarations hread (hss.renumber hσ.after)
      · refine (ihs rfl).lift hs.numbered.le (Nat.le_refl _) (fun _ => .nil rfl)
          fun hσ hread => ?_
        rw [List.append_nil]
        exact Derives.declarations (hs.renumber hσ.before) hread
  | @baseClass _ keyword name lbrace _ _ _ rbrace hkeyword hname hlbrace _ hrbrace ih =>
      exact (ih rfl).enclose (fun ts => keyword :: name :: lbrace :: ts ++ [rbrace])
        (Nat.le_refl _) (Nat.le_refl _) [keyword, name, lbrace] [rbrace] (fun _ => rfl)
        (by simp [NoLoop, hkeyword, hname, hlbrace]) (noLoop_rightBrace hrbrace) nofun
        fun _ hread => Derives.baseClass hkeyword hname hlbrace hread hrbrace
  | @derivedClass i keyword name less parent lbrace _ methods _ rbrace hkeyword hname hless hparent
      hlbrace _ hrbrace ih =>
      refine (ih rfl).enclose
        (fun ts => keyword :: name :: less :: parent :: lbrace :: ts ++ [rbrace])
        (Nat.le_succ _) (Nat.le_refl _) [keyword, name, less, parent, lbrace] [rbrace]
        (fun _ => rfl) (by simp [NoLoop, hkeyword, hname, hless, hparent, hlbrace])
        (noLoop_rightBrace hrbrace) nofun fun {σ _} hσ hread => ?_
      show Derives .declaration i _ (.classDecl name (some (.variable (σ i) parent))
        (FunctionDecl.renumberEach σ methods)) _
      rw [hσ i (.inl (Nat.lt_succ_self i))]
      exact .derivedClass hkeyword hname hless hparent hlbrace hread hrbrace
  | @funDecl _ keyword _ _ _ hkeyword _ ih =>
      exact (ih rfl).enclose (fun ts => keyword :: ts) (Nat.le_refl _) (Nat.le_refl _) [keyword] []
        (by simp) (by simp [NoLoop, hkeyword]) noLoop_nil nofun
        fun _ hread => Derives.funDecl hkeyword hread
  | varDecl h => exact .of_noLoop (h.noLoop rfl)
  | statement d _ ih =>
      refine (ih rfl).enclose id (Nat.le_refl _) (Nat.le_refl _) [] [] (by simp) noLoop_nil
        noLoop_nil (fun _ => .nil rfl) ?_
      rintro σ ts - ⟨d', -, hs⟩
      exact Derives.statement d' hs
  | functions hd hds ih ihs =>
      refine .append ?_ ?_
      · refine (ih rfl).lift (Nat.le_refl _) hds.numbered.le nofun fun hσ hread => ?_
        rw [List.append_nil]
        exact Derives.functions hread (hds.renumber hσ.after)
      · refine (ihs rfl).lift hd.numbered.le (Nat.le_refl _) nofun fun hσ hread => ?_
        rw [List.append_nil]
        exact Derives.functions (hd.renumber hσ.before) hread
  | @functionBare _ name lparen rparen lbrace _ _ _ rbrace hname hlparen hrparen hlbrace _ hrbrace
      ih =>
      exact (ih rfl).enclose (fun ts => name :: lparen :: rparen :: lbrace :: ts ++ [rbrace])
        (Nat.le_refl _) (Nat.le_refl _) [name, lparen, rparen, lbrace] [rbrace] (fun _ => rfl)
        (by simp [NoLoop, hname, hlparen, hrparen, hlbrace]) (noLoop_rightBrace hrbrace)
        (fun _ => .rightBrace hrbrace)
        fun _ hread => Derives.functionBare hname hlparen hrparen hlbrace hread hrbrace
  | @function _ name lparen ps _ _ rparen lbrace _ _ _ rbrace hname hlparen hparams hlength hrparen
      hlbrace _ hrbrace ih ihbody =>
      have hfront : NoLoop (name :: lparen :: ps ++ [rparen, lbrace]) := by
        simp [noLoop_cons, noLoop_append, noLoop_nil, hname, hlparen, hparams.noLoop rfl, hrparen,
          hlbrace]
      exact (ihbody rfl).enclose
        (fun ts => name :: lparen :: ps ++ rparen :: lbrace :: ts ++ [rbrace])
        hparams.numbered.le (Nat.le_refl _) _ [rbrace] (by simp) hfront (noLoop_rightBrace hrbrace)
        (fun _ => .rightBrace hrbrace)
        fun _ hread => Derives.function hname hlparen hparams hlength hrparen hlbrace hread hrbrace
  | exprStatement h => exact .of_noLoop (h.noLoop rfl)
  | forStatement hkeyword hlparen hinit hcondition hsemicolon hincrement hrparen hbody hform _ _ _
      ihbody =>
      exact (ihbody rfl).forStatement hkeyword hlparen hinit hcondition hsemicolon hincrement
        hrparen hbody hform
  | @ifThen _ keyword lparen ts _ _ rparen _ _ _ d hkeyword hlparen hcondition hrparen hs ih ihs =>
      have hfront := hcondition.noLoop_head hkeyword nofun hlparen hrparen
      refine (ihs rfl).enclose (fun us => keyword :: lparen :: ts ++ rparen :: us)
        hcondition.numbered.le (Nat.le_refl _) _ [] (by simp) hfront noLoop_nil
        (fun _ => .nil rfl) ?_
      rintro σ us hσ ⟨d', -, hs⟩
      exact ⟨true, id, .ifThen d' hkeyword hlparen (hcondition.renumber hσ.before) hrparen hs⟩
  | ifElse hkeyword hlparen hcondition hrparen hs hotherwise ht _ ihs iht =>
      exact (ihs rfl).ifElse hkeyword hlparen hcondition hrparen hs hotherwise ht (iht rfl)
  | print hkeyword he hsemicolon =>
      exact .of_noLoop (by simp [noLoop_cons, noLoop_append, noLoop_nil, hkeyword, hsemicolon,
        he.noLoop rfl])
  | ret hkeyword he hsemicolon =>
      exact .of_noLoop (by simp [noLoop_cons, noLoop_append, noLoop_nil, hkeyword, hsemicolon,
        he.noLoop rfl])
  | @whileStatement _ keyword lparen ts _ _ rparen _ _ _ d hkeyword hlparen hcondition hrparen hs ih
      ihs =>
      have hfront := hcondition.noLoop_head hkeyword nofun hlparen hrparen
      refine (ihs rfl).enclose (fun us => keyword :: lparen :: ts ++ rparen :: us)
        hcondition.numbered.le (Nat.le_refl _) _ [] (by simp) hfront noLoop_nil
        .nil ?_
      rintro σ us hσ ⟨d', hd, hs⟩
      exact ⟨d', hd, .whileStatement hkeyword hlparen (hcondition.renumber hσ.before) hrparen hs⟩
  | @block _ lbrace _ _ _ rbrace hlbrace _ hrbrace ih =>
      exact (ih rfl).enclose (fun ts => lbrace :: ts ++ [rbrace]) (Nat.le_refl _) (Nat.le_refl _)
        [lbrace] [rbrace] (fun _ => rfl) (by simp [NoLoop, hlbrace]) (noLoop_rightBrace hrbrace)
        (fun _ => .rightBrace hrbrace)
        fun _ hread => ⟨false, nofun, Derives.block hlbrace hread hrbrace⟩
  | _ => cases hx

/-! ### The loop at a token -/

/-- A phrase is one wherever its ids begin. -/
theorem Symbol.Phrase.exists_derives {x : Symbol} {ts : List Token} (h : x.Phrase ts)
    (i : ExprId) : ∃ a j, Derives x i ts a j := by
  obtain ⟨first, a, next, h⟩ := h
  have hspan : first + (next - first + i) = i + next := by
    rw [← Nat.add_assoc, Nat.add_sub_cancel' h.numbered.le, Nat.add_comm]
  have hσ : Shifts (fun id => id - first + i) first next i (next - first + i) :=
    ⟨hspan, fun id hid _ => by omega⟩
  exact ⟨_, _, h.renumber hσ⟩

/-- Tokens are read in one way only. -/
theorem Parser.eq_of_reads {α : Type} {p : Parser α} {a a' : α} {ts rest ts' rest' : List Token}
    {eof : Token} {i j j' : ExprId} (h : ts ++ rest = ts' ++ rest')
    (hp : p ⟨ts ++ rest, eof, i, []⟩ = .ok a ⟨rest, eof, j, []⟩)
    (hp' : p ⟨ts' ++ rest', eof, i, []⟩ = .ok a' ⟨rest', eof, j', []⟩) :
    ts = ts' ∧ rest = rest' := by
  rw [h, hp'] at hp
  cases hp
  exact ⟨List.append_cancel_right h, rfl⟩

/-- At a token no more than one loop begins. -/
theorem ForLoop.unfolded_eq {loop loop' : ForLoop} {post post' : List Token}
    (h : loop.tokens ++ post = loop'.tokens ++ post') (hpost : loop.Ends post)
    (hpost' : loop'.Ends post') (m : WhileMarks) :
    loop.unfolded m = loop'.unfolded m ∧ post = post' := by
  simp only [tokens, List.append_assoc, List.cons_append, List.cons.injEq] at h
  obtain ⟨-, -, h⟩ := h
  let eof := loop.keyword
  let n := 16 * (loop.init.length + loop'.init.length + loop.condition.length +
    loop'.condition.length + loop.increment.length + loop'.increment.length + loop.body.length +
    loop'.body.length) + 11
  -- One part after the other: what is read from the same tokens ends at the same one.
  obtain ⟨_, _, hinit⟩ := loop.init_phrase.exists_derives 0
  obtain ⟨_, _, hinit'⟩ := loop'.init_phrase.exists_derives 0
  obtain ⟨hinits, h⟩ := Parser.eq_of_reads h
    (Parser.completes hinit n _ eof [] (by omega)) (Parser.completes hinit' n _ eof [] (by omega))
  obtain ⟨_, _, hcondition⟩ := loop.condition_phrase.exists_derives 0
  obtain ⟨_, _, hcondition'⟩ := loop'.condition_phrase.exists_derives 0
  obtain ⟨hconditions, h⟩ := Parser.eq_of_reads h
    (Parser.completes hcondition n .semicolon _ _ eof [] (by omega) loop.semicolon_kind rfl rfl)
    (Parser.completes hcondition' n .semicolon _ _ eof [] (by omega) loop'.semicolon_kind rfl rfl)
  obtain ⟨-, h⟩ := List.cons.inj h
  obtain ⟨_, _, hincrement⟩ := loop.increment_phrase.exists_derives 0
  obtain ⟨_, _, hincrement'⟩ := loop'.increment_phrase.exists_derives 0
  obtain ⟨hincrements, h⟩ := Parser.eq_of_reads h
    (Parser.completes hincrement n .rightParen _ _ eof [] (by omega) loop.rparen_kind rfl rfl)
    (Parser.completes hincrement' n .rightParen _ _ eof [] (by omega) loop'.rparen_kind rfl rfl)
  obtain ⟨-, h⟩ := List.cons.inj h
  obtain ⟨_, _, hbody⟩ := loop.body_phrase.exists_derives 0
  obtain ⟨_, _, hbody'⟩ := loop'.body_phrase.exists_derives 0
  obtain ⟨hbodies, h⟩ := Parser.eq_of_reads h
    (Parser.completes hbody n _ eof [] (by omega) hpost)
    (Parser.completes hbody' n _ eof [] (by omega) hpost')
  simp only [unfolded, hinits, hconditions, hincrements, hbodies, h, and_self]

theorem Symbol.Allows.ends {loop : ForLoop} {x : Symbol} {post : List Token}
    (h : loop.dangling = true → x.Allows post) : loop.Ends post :=
  fun hdangling => (h hdangling).2

section Declarations

variable {i j : ExprId} {pre post : List Token} {program : List Stmt}

/-- A loop begins at each keyword `for`. -/
theorem Derives.exists_loop {keyword : Token} {rest : List Token}
    (h : Derives .declarations i (pre ++ keyword :: rest) program j)
    (hkeyword : keyword.kind = .kwFor) :
    ∃ (loop : ForLoop) (post : List Token), keyword :: rest = loop.tokens ++ post ∧
      loop.Ends post := by
  obtain ⟨loop, post, hrest, hpost, -⟩ := h.unfoldsIn rfl pre keyword rest hkeyword rfl
  rw [List.append_nil] at hrest
  exact ⟨loop, post, hrest, Symbol.Allows.ends hpost⟩

/-- Each loop can be written with `while`. -/
theorem Derives.unfold {loop : ForLoop}
    (h : Derives .declarations i (pre ++ loop.tokens ++ post) program j) (hpost : loop.Ends post)
    (m : WhileMarks) : ∃ σ : Equiv.Perm ExprId, StaysOutside σ i j ∧
      Derives .declarations i (pre ++ loop.unfolded m ++ post) (Stmt.renumberEach σ program) j := by
  rw [List.append_assoc] at h
  obtain ⟨loop', post', hrest, hpost', hunfold⟩ :=
    h.unfoldsIn rfl pre loop.keyword _ loop.keyword_kind rfl
  rw [List.append_nil] at hrest
  obtain ⟨hunfolded, hsame⟩ := ForLoop.unfolded_eq hrest hpost (Symbol.Allows.ends hpost') m
  rw [hunfolded, hsame]
  exact hunfold m

end Declarations

end ScriptLang
