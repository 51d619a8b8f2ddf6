import ScriptLang.Proofs.Reading.Contexts

/-! Semicolons of a program. Each of them ends an expression, print or return statement or a
variable declaration, or it stands in the header of a `for` loop. -/

namespace ScriptLang

/-- The kinds of the tokens at which recovery stops: a semicolon, and those that begin a
statement. -/
def Kind.isBoundary : Kind → Bool
  | .semicolon | .kwClass | .kwFun | .kwVar | .kwFor | .kwIf | .kwWhile | .kwPrint
  | .kwReturn => true
  | _ => false

theorem Level.isBoundary_of_accepts {level : Level} {kind : Kind}
    (h : level.accepts kind = true) : kind.isBoundary = false := by
  unfold Level.accepts at h
  split at h <;> first | rfl | cases h

/-- The symbols below statements. -/
def Symbol.isInline : Symbol → Bool
  | .parameters | .optional | .expression | .operation _ | .unary | .call | .arguments
  | .primary => true
  | _ => false

/-- Recovery does not stop inside an expression. -/
theorem Derives.isBoundary_eq_false {x : Symbol} {i j : ExprId} {ts : List Token} {a : x.Tree}
    (h : Derives x i ts a j) : x.isInline = true → ∀ t ∈ ts, t.kind.isBoundary = false := by
  induction h with
  | absent => simp
  | present _ ih | operation _ ih | operand _ ih | tighter _ ih | call _ ih | callee _ ih
  | argument _ ih => exact fun _ => ih rfl
  | join _ _ hjoins ih ih' =>
      have hoperator := Level.isBoundary_of_accepts (Level.joins_iff.mp hjoins).1
      simp_all [or_imp, Symbol.isInline]
  | unary hkind _ ih =>
      rcases hkind with hkind | hkind <;> simp_all [Kind.isBoundary]
  | _ => simp_all [or_imp, Kind.isBoundary, Symbol.isInline]

/-! ### Statements without their semicolon -/

/-- The tokens of a plain statement or variable declaration before its value, and the error if no
semicolon follows the value. -/
inductive Head : Bool → List Token → SyntaxCause → Prop where
  | initializer {keyword name equal} :
      keyword.kind = .kwVar → name.kind = .identifier → equal.kind = .equal →
      Head true [keyword, name, equal] .noSemicolonAfterVariable
  | expression : Head false [] .noSemicolonAfterExpression
  | print {keyword} : keyword.kind = .kwPrint → Head false [keyword] .noSemicolonAfterValue
  | ret {keyword} : keyword.kind = .kwReturn → Head false [keyword] .noSemicolonAfterReturn

/-- `Plain declares i ts j cause goes`: the tokens `ts` and a semicolon are an expression, print or
return statement, or a variable declaration if it `declares` one. Where the next token does not go
on with it and is no semicolon, `cause` is the error. -/
inductive Plain : Bool → ExprId → List Token → ExprId → SyntaxCause → (Kind → Bool) → Prop where
  | bareVar {i keyword name} :
      keyword.kind = .kwVar → name.kind = .identifier →
      Plain true i [keyword, name] i .noSemicolonAfterVariable (· = .equal)
  | bareReturn {i keyword} :
      keyword.kind = .kwReturn → Plain false i [keyword] i .noExpression Kind.beginsExpression
  | value {declares i head cause ts e j} :
      Head declares head cause → Derives .expression i ts e j →
      Plain declares i (head ++ ts) j cause Kind.extendsExpression

/-- The tokens before a plain statement: of statements that it ends. A variable declaration ends
none. -/
inductive Ahead : Bool → ExprId → List Token → ExprId → Prop where
  | declaration {i} : Ahead true i [] i
  | statement {i ts j} : Leading i ts j → Ahead false i ts j

/-- `Unfinished i ts j cause goes`: the tokens `ts` and a semicolon are a declaration that ends with
a plain statement. -/
inductive Unfinished : ExprId → List Token → ExprId → SyntaxCause → (Kind → Bool) → Prop where
  | mk {declares i ts j us k cause goes} :
      Ahead declares i ts j → Plain declares j us k cause goes →
      Unfinished i (ts ++ us) k cause goes

/-- The tokens of a `for` loop before a semicolon of its header. -/
inductive Header : ExprId → List Token → Token → Prop where
  | initializer {i keyword lparen ts semicolon init j} :
      keyword.kind = .kwFor → lparen.kind = .leftParen →
      Derives .forInit i (ts ++ [semicolon]) init j → Header i (keyword :: lparen :: ts) semicolon
  | condition {i keyword lparen ts init j us condition k semicolon} :
      keyword.kind = .kwFor → lparen.kind = .leftParen → Derives .forInit i ts init j →
      Derives .optional j us condition k → Header i (keyword :: lparen :: ts ++ us) semicolon

/-- A semicolon behind the tokens of a declaration: it ends a statement there, or stands in the
header of a loop. -/
def Placed (i : ExprId) (ts : List Token) (semicolon : Token) : Prop :=
  (∃ j cause goes, Unfinished i ts j cause goes) ∨
    ∃ front j us, ts = front ++ us ∧ Leading i front j ∧ Header j us semicolon

/-- A semicolon behind the tokens of a program or block. -/
def Located (i : ExprId) (ts : List Token) (semicolon : Token) : Prop :=
  ∃ front j us, ts = front ++ us ∧ Opened i front j ∧ Placed j us semicolon

/-! ### Where they stand -/

namespace Located

variable {i j k l : ExprId} {ts us vs ws : List Token} {semicolon : Token}

theorem here (h : Placed i ts semicolon) : Located i ts semicolon := ⟨[], i, ts, rfl, .here, h⟩

theorem next {s : Stmt} (hfirst : Derives .declaration i ts s j)
    (h : Located j us semicolon) : Located i (ts ++ us) semicolon := by
  obtain ⟨front, k, vs, rfl, hfront, hplaced⟩ := h
  exact ⟨ts ++ front, k, vs, by simp, .next hfirst hfront, hplaced⟩

theorem block {lbrace : Token} (hleading : Leading i ts j) (hlbrace : lbrace.kind = .leftBrace)
    (h : Located j us semicolon) : Located i (ts ++ lbrace :: us) semicolon := by
  obtain ⟨front, k, vs, rfl, hfront, hplaced⟩ := h
  exact ⟨ts ++ lbrace :: front, k, vs, by simp, .block hleading hlbrace hfront, hplaced⟩

theorem function {keyword : Token} (hkeyword : keyword.kind = .kwFun)
    (hsignature : Signature i ts j) (h : Located j us semicolon) :
    Located i (keyword :: (ts ++ us)) semicolon := by
  obtain ⟨front, k, vs, rfl, hfront, hplaced⟩ := h
  exact ⟨keyword :: ts ++ front, k, vs, by simp, .function hkeyword hsignature hfront, hplaced⟩

theorem method {ds : List FunctionDecl} (hhead : ClassHead i ts j)
    (hfunctions : Derives .functions j us ds k) (hsignature : Signature k vs l)
    (h : Located l ws semicolon) : Located i (ts ++ (us ++ (vs ++ ws))) semicolon := by
  obtain ⟨front, m, xs, rfl, hfront, hplaced⟩ := h
  exact ⟨ts ++ (us ++ (vs ++ front)), m, xs, by simp,
    .method hhead hfunctions hsignature hfront, hplaced⟩

end Located

/-- The tokens of a statement before a semicolon, from the innermost statement on in which the
semicolon stands, up to a block. -/
def Within (i : ExprId) (ts : List Token) (semicolon : Token) : Prop :=
  (∃ j cause goes, Plain false i ts j cause goes) ∨ Header i ts semicolon ∨
    ∃ lbrace us, ts = lbrace :: us ∧ lbrace.kind = .leftBrace ∧ Located i us semicolon

/-- How a semicolon splits a phrase: what stands before it is `front`, and after it `rest`. -/
def Symbol.Splits (semicolon : Token) : Symbol → ExprId → List Token → List Token → Prop
  | .declarations, i, front, _ => Located i front semicolon
  | .declaration, i, front, _ => Located i front semicolon
  | .varDecl, i, front, rest => rest = [] ∧ ∃ j cause goes, Plain true i front j cause goes
  | .functions, i, front, _ => ∃ ts ds j us k vs, front = ts ++ (us ++ vs) ∧
      Derives .functions i ts ds j ∧ Signature j us k ∧ Located k vs semicolon
  | .function, i, front, _ => ∃ ts j us, front = ts ++ us ∧ Signature i ts j ∧
      Located j us semicolon
  | .statement _, i, front, _ => ∃ ts j us, front = ts ++ us ∧ Leading i ts j ∧
      Within j us semicolon
  | .exprStmt, i, front, rest => rest = [] ∧ ∃ e j, Derives .expression i front e j
  | .forInit, _, _, rest => rest = []
  | _, _, _, _ => False

section Splits

variable {i j k : ExprId} {ts us front rest : List Token} {semicolon : Token}

theorem split_append (h : ts ++ us = front ++ semicolon :: rest) :
    (∃ vs, ts = front ++ semicolon :: vs ∧ rest = vs ++ us) ∨
      ∃ vs, front = ts ++ vs ∧ us = vs ++ semicolon :: rest := by
  rcases List.append_eq_append_iff.mp h with ⟨vs, rfl, rfl⟩ | ⟨vs, rfl, hvs⟩
  · exact .inr ⟨vs, rfl, rfl⟩
  · cases vs with
    | nil => exact .inr ⟨[], by simp, by simpa using hvs.symm⟩
    | cons t vs =>
        obtain ⟨rfl, rfl⟩ := List.cons_eq_cons.mp hvs
        exact .inl ⟨vs, rfl, rfl⟩

/-- The semicolon stands behind tokens that are none. -/
theorem split_plain (ts us : List Token) (hts : ∀ t ∈ ts, t.kind ≠ .semicolon)
    (hsemicolon : semicolon.kind = .semicolon) (h : ts ++ us = front ++ semicolon :: rest) :
    ∃ vs, front = ts ++ vs ∧ us = vs ++ semicolon :: rest := by
  rcases split_append h with ⟨vs, rfl, -⟩ | h
  · exact absurd hsemicolon (hts semicolon (by simp))
  · exact h

theorem Derives.ne_semicolon {x : Symbol} {a : x.Tree} (h : Derives x i ts a j)
    (hx : x.isInline = true) : ∀ t ∈ ts, t.kind ≠ .semicolon := by
  intro t ht hkind
  have hboundary := h.isBoundary_eq_false hx t ht
  rw [hkind] at hboundary
  cases hboundary

/-- If no other is one, the last token is the semicolon. -/
theorem split_last (ts : List Token) {last : Token} (hts : ∀ t ∈ ts, t.kind ≠ .semicolon)
    (hsemicolon : semicolon.kind = .semicolon) (h : ts ++ [last] = front ++ semicolon :: rest) :
    front = ts ∧ last = semicolon ∧ rest = [] := by
  obtain ⟨vs, rfl, hvs⟩ := split_plain ts _ hts hsemicolon h
  cases vs with
  | nil => simpa using hvs
  | cons t vs => simp at hvs

/-- The semicolon stands before the last token if that is none. -/
theorem split_before {last : Token} (hlast : last.kind ≠ .semicolon)
    (hsemicolon : semicolon.kind = .semicolon) (h : ts ++ [last] = front ++ semicolon :: rest) :
    ∃ vs, ts = front ++ semicolon :: vs := by
  rcases split_append h with ⟨vs, hts, -⟩ | ⟨vs, -, hvs⟩
  · exact ⟨vs, hts⟩
  · cases vs with
    | nil =>
        obtain ⟨rfl, -⟩ := List.cons_eq_cons.mp hvs
        exact absurd hsemicolon hlast
    | cons t vs => simp at hvs

end Splits

/-- Every semicolon splits the phrase it stands in. -/
theorem Derives.splits {x : Symbol} {i j : ExprId} {ts : List Token} {a : x.Tree}
    (h : Derives x i ts a j) {semicolon : Token} (hsemicolon : semicolon.kind = .semicolon) :
    x.isInline = false → ∀ front rest, ts = front ++ semicolon :: rest →
      x.Splits semicolon i front rest := by
  induction h with
  | noDeclarations | noFunctions => simp
  | declarations hfirst _ ih ih' =>
      intro _ front rest heq
      rcases split_append heq with ⟨vs, hts, -⟩ | ⟨vs, rfl, hus⟩
      · exact ih rfl front vs hts
      · exact (ih' rfl vs rest hus).next hfirst
  | @baseClass i keyword name lbrace ts _ _ rbrace hkeyword hname hlbrace _ hrbrace ih =>
      intro _ front rest heq
      obtain ⟨vs, rfl, hvs⟩ := split_plain [keyword, name, lbrace] _
        (by simp [hkeyword, hname, hlbrace]) hsemicolon heq
      obtain ⟨ws, hws⟩ := split_before (by simp [hrbrace]) hsemicolon hvs
      obtain ⟨fs, ds, k, us, l, xs, rfl, hfs, hsignature, hlocated⟩ := ih rfl vs ws hws
      exact hlocated.method (.base hkeyword hname hlbrace) hfs hsignature
  | @derivedClass i keyword name less parent lbrace ts _ _ rbrace hkeyword hname hless hparent
      hlbrace _ hrbrace ih =>
      intro _ front rest heq
      obtain ⟨vs, rfl, hvs⟩ := split_plain [keyword, name, less, parent, lbrace] _
        (by simp [hkeyword, hname, hless, hparent, hlbrace]) hsemicolon heq
      obtain ⟨ws, hws⟩ := split_before (by simp [hrbrace]) hsemicolon hvs
      obtain ⟨fs, ds, k, us, l, xs, rfl, hfs, hsignature, hlocated⟩ := ih rfl vs ws hws
      exact hlocated.method (.derived hkeyword hname hless hparent hlbrace) hfs hsignature
  | @funDecl i keyword ts _ _ hkeyword _ ih =>
      intro _ front rest heq
      obtain ⟨vs, rfl, hvs⟩ := split_plain [keyword] _ (by simp [hkeyword]) hsemicolon heq
      obtain ⟨us, k, xs, rfl, hsignature, hlocated⟩ := ih rfl vs rest hvs
      have hfunction := hlocated.function hkeyword hsignature
      exact hfunction
  | varDecl _ ih =>
      intro _ front rest heq
      obtain ⟨-, j, cause, goes, hplain⟩ := ih rfl front rest heq
      exact .here (.inl ⟨j, cause, goes, .mk .declaration hplain⟩)
  | statement _ _ ih =>
      intro _ front rest heq
      obtain ⟨ts, j, us, rfl, hleading, hwithin⟩ := ih rfl front rest heq
      rcases hwithin with ⟨k, cause, goes, hplain⟩ | hheader | ⟨lbrace, vs, rfl, hlbrace, hlocated⟩
      · exact .here (.inl ⟨k, cause, goes, .mk (.statement hleading) hplain⟩)
      · exact .here (.inr ⟨ts, j, us, rfl, hleading, hheader⟩)
      · exact hlocated.block hleading hlbrace
  | @varBare i keyword name last hkeyword hname _ =>
      intro _ front rest heq
      obtain ⟨rfl, -, rfl⟩ := split_last [keyword, name] (by simp [hkeyword, hname])
        hsemicolon heq
      exact ⟨rfl, _, _, _, .bareVar hkeyword hname⟩
  | @varInit i keyword name equal ts _ _ last hkeyword hname hequal hvalue _ ih =>
      intro _ front rest heq
      obtain ⟨vs, rfl, hvs⟩ := split_plain [keyword, name, equal] _
        (by simp [hkeyword, hname, hequal]) hsemicolon heq
      obtain ⟨rfl, -, rfl⟩ := split_last _ (hvalue.ne_semicolon rfl) hsemicolon hvs
      exact ⟨rfl, _, _, _, .value (.initializer hkeyword hname hequal) hvalue⟩
  | functions hfirst _ ih ih' =>
      intro _ front rest heq
      rcases split_append heq with ⟨vs, hts, -⟩ | ⟨vs, rfl, hus⟩
      · obtain ⟨us, k, xs, rfl, hsignature, hlocated⟩ := ih rfl front vs hts
        exact ⟨[], [], _, us, k, xs, rfl, .noFunctions, hsignature, hlocated⟩
      · obtain ⟨fs, ds, k, us, l, xs, rfl, hfs, hsignature, hlocated⟩ := ih' rfl vs rest hus
        exact ⟨_, _, k, us, l, xs, by simp, .functions hfirst hfs, hsignature, hlocated⟩
  | @functionBare i name lparen rparen lbrace ts _ _ rbrace hname hlparen hrparen hlbrace _ hrbrace
      ih =>
      intro _ front rest heq
      obtain ⟨vs, rfl, hvs⟩ := split_plain [name, lparen, rparen, lbrace] _
        (by simp [hname, hlparen, hrparen, hlbrace]) hsemicolon heq
      obtain ⟨ws, hws⟩ := split_before (by simp [hrbrace]) hsemicolon hvs
      exact ⟨_, i, vs, rfl, .bare hname hlparen hrparen hlbrace, ih rfl vs ws hws⟩
  | @function i name lparen ps _ j rparen lbrace ts _ _ rbrace hname hlparen hparams hmax hrparen
      hlbrace _ hrbrace _ ih =>
      intro _ front rest heq
      have hplain := hparams.ne_semicolon rfl
      obtain ⟨vs, rfl, hvs⟩ := split_plain (name :: lparen :: ps ++ [rparen, lbrace])
        (ts ++ [rbrace]) (by simp_all [or_imp]) hsemicolon (by simpa using heq)
      obtain ⟨ws, hws⟩ := split_before (by simp [hrbrace]) hsemicolon hvs
      exact ⟨_, j, vs, rfl, .params hname hlparen hparams hmax hrparen hlbrace, ih rfl vs ws hws⟩
  | exprStatement _ ih =>
      intro _ front rest heq
      obtain ⟨-, e, k, hexpression⟩ := ih rfl front rest heq
      exact ⟨[], _, front, rfl, .none, .inl ⟨k, _, _, .value .expression hexpression⟩⟩
  | @forStatement i keyword lparen ts init j us condition k clause vs increment l rparen ws body m s
      _ hkeyword hlparen hinit hcondition hclause hincrement hrparen _ _ ih _ _ ih' =>
      intro _ front rest heq
      obtain ⟨xs, rfl, hxs⟩ := split_plain [keyword, lparen]
        (ts ++ (us ++ clause :: (vs ++ rparen :: ws))) (by simp [hkeyword, hlparen])
        hsemicolon (by simpa using heq)
      rcases split_append hxs with ⟨ys, hts, -⟩ | ⟨ys, rfl, hys⟩
      · -- The semicolon ends the first clause.
        obtain rfl : ys = [] := ih rfl xs ys hts
        rw [hts] at hinit
        exact ⟨[], i, _, rfl, .none, .inr (.inl (.initializer hkeyword hlparen hinit))⟩
      · obtain ⟨zs, rfl, hzs⟩ := split_plain _ _ (hcondition.ne_semicolon rfl) hsemicolon hys
        cases zs with
        | nil =>
            -- It ends the condition.
            refine ⟨[], i, _, rfl, .none, .inr (.inl ?_)⟩
            simpa using Header.condition hkeyword hlparen hinit hcondition
        | cons t zs =>
            obtain ⟨rfl, hzs⟩ := List.cons_eq_cons.mp hzs
            have hplain := hincrement.ne_semicolon rfl
            obtain ⟨ys, rfl, hws⟩ := split_plain (vs ++ [rparen]) ws
              (by simp_all [or_imp]) hsemicolon (by simpa using hzs)
            obtain ⟨lead, k, xs, rfl, hleading, hwithin⟩ := ih' rfl ys rest hws
            exact ⟨_, k, xs, by simp, .forLoop hkeyword hlparen hinit hcondition hclause hincrement
              hrparen hleading, hwithin⟩
  | @ifThen i keyword lparen ts _ _ rparen us _ _ _ hkeyword hlparen hcondition hrparen _ _ ih =>
      intro _ front rest heq
      have hplain := hcondition.ne_semicolon rfl
      obtain ⟨vs, rfl, hvs⟩ := split_plain (keyword :: lparen :: ts ++ [rparen]) us
        (by simp_all [or_imp]) hsemicolon (by simpa using heq)
      obtain ⟨lead, k, xs, rfl, hleading, hwithin⟩ := ih rfl vs rest hvs
      exact ⟨_, k, xs, by simp, .ifThen hkeyword hlparen hcondition hrparen hleading, hwithin⟩
  | @ifElse i keyword lparen ts _ _ rparen us _ _ otherwise vs _ _ _ hkeyword hlparen hcondition
      hrparen hthen hotherwise _ _ ih ih' =>
      intro _ front rest heq
      have hplain := hcondition.ne_semicolon rfl
      obtain ⟨ws, rfl, hws⟩ := split_plain (keyword :: lparen :: ts ++ [rparen])
        (us ++ otherwise :: vs) (by simp_all [or_imp]) hsemicolon (by simpa using heq)
      rcases split_append hws with ⟨xs, hus, -⟩ | ⟨xs, rfl, hxs⟩
      · obtain ⟨lead, k, xs, rfl, hleading, hwithin⟩ := ih rfl ws xs hus
        exact ⟨_, k, xs, by simp, .ifThen hkeyword hlparen hcondition hrparen hleading, hwithin⟩
      · obtain ⟨ys, rfl, hys⟩ := split_plain [otherwise] _ (by simp [hotherwise]) hsemicolon
          hxs
        obtain ⟨lead, k, xs, rfl, hleading, hwithin⟩ := ih' rfl ys rest hys
        exact ⟨_, k, xs, by simp,
          .ifElse hkeyword hlparen hcondition hrparen hthen hotherwise hleading, hwithin⟩
  | @print i keyword ts _ _ last hkeyword hvalue _ _ =>
      intro _ front rest heq
      obtain ⟨vs, rfl, hvs⟩ := split_plain [keyword] _ (by simp [hkeyword]) hsemicolon heq
      obtain ⟨rfl, -, -⟩ := split_last _ (hvalue.ne_semicolon rfl) hsemicolon hvs
      exact ⟨[], i, _, rfl, .none, .inl ⟨_, _, _, .value (.print hkeyword) hvalue⟩⟩
  | @ret i keyword ts _ _ last hkeyword hvalue _ _ =>
      intro _ front rest heq
      obtain ⟨vs, rfl, hvs⟩ := split_plain [keyword] _ (by simp [hkeyword]) hsemicolon heq
      obtain ⟨rfl, -, -⟩ := split_last _ (hvalue.ne_semicolon rfl) hsemicolon hvs
      refine ⟨[], i, _, rfl, .none, .inl ?_⟩
      cases hvalue with
      | absent => exact ⟨_, _, _, .bareReturn hkeyword⟩
      | present hvalue => exact ⟨_, _, _, .value (.ret hkeyword) hvalue⟩
  | @whileStatement i keyword lparen ts _ _ rparen us _ _ _ hkeyword hlparen hcondition hrparen _ _
      ih =>
      intro _ front rest heq
      have hplain := hcondition.ne_semicolon rfl
      obtain ⟨vs, rfl, hvs⟩ := split_plain (keyword :: lparen :: ts ++ [rparen]) us
        (by simp_all [or_imp]) hsemicolon (by simpa using heq)
      obtain ⟨lead, k, xs, rfl, hleading, hwithin⟩ := ih rfl vs rest hvs
      exact ⟨_, k, xs, by simp, .whileLoop hkeyword hlparen hcondition hrparen hleading, hwithin⟩
  | @block i lbrace ts _ _ rbrace hlbrace _ hrbrace ih =>
      intro _ front rest heq
      obtain ⟨vs, rfl, hvs⟩ := split_plain [lbrace] _ (by simp [hlbrace]) hsemicolon heq
      obtain ⟨ws, hws⟩ := split_before (by simp [hrbrace]) hsemicolon hvs
      exact ⟨[], i, _, rfl, .none, .inr (.inr ⟨lbrace, vs, rfl, hlbrace, ih rfl vs ws hws⟩)⟩
  | exprStmt hexpression _ _ =>
      intro _ front rest heq
      obtain ⟨rfl, -, rfl⟩ := split_last _ (hexpression.ne_semicolon rfl) hsemicolon heq
      exact ⟨rfl, _, _, hexpression⟩
  | forVar _ ih | forExpr _ ih =>
      intro _ front rest heq
      exact (ih rfl front rest heq).1
  | forNone =>
      intro _ front rest heq
      exact (split_last [] (by simp) hsemicolon heq).2.2
  | _ =>
      intro hx
      cases hx

end ScriptLang
