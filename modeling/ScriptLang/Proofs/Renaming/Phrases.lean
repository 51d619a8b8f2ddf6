import ScriptLang.Proofs.Grammar
import ScriptLang.Proofs.Matching.Trees

/-! Phrases for trees that match: a tree with another name in it is what the same tokens stand for
when some identifiers among them have the other name. -/

namespace ScriptLang

/-- Tokens that are the same, or one word for another. -/
inductive Token.Reworded (old new : String) : Token → Token → Prop where
  | same (t : Token) : Reworded old new t t
  | word {t : Token} : t.kind = .identifier → t.lexeme = old →
      Reworded old new t { t with lexeme := new }

abbrev Token.RewordedEach (old new : String) : List Token → List Token → Prop :=
  List.Forall₂ (Token.Reworded old new)

namespace Token.RewordedEach

variable {old new : String} {ts ts' us us' : List Token}

theorem word {t t' : Token} (ht : t.Reworded old new t') (h : RewordedEach old new ts ts') :
    RewordedEach old new (t :: ts) (t' :: ts') :=
  .cons ht h

theorem keep (t : Token) (h : RewordedEach old new ts ts') :
    RewordedEach old new (t :: ts) (t :: ts') :=
  .cons (.same t) h

theorem append (h : RewordedEach old new ts ts') (hus : RewordedEach old new us us') :
    RewordedEach old new (ts ++ us) (ts' ++ us') :=
  List.rel_append h hus

theorem one (t : Token) : RewordedEach old new [t] [t] := .cons (.same t) .nil

theorem two (t u : Token) : RewordedEach old new [t, u] [t, u] := keep t (one u)

end Token.RewordedEach

section Symbols

variable (μ : Matching)

/-- The trees of a symbol that match in a scope that sees the other name at `k`. -/
def Symbol.Matches (k : Place) : (x : Symbol) → x.Tree → x.Tree → Prop
  | .declarations => Stmt.MatchesEach μ k
  | .declaration => Stmt.Matches μ k
  | .varDecl => Stmt.Matches μ k
  | .functions => FunctionDecl.MatchesEach μ k
  | .function => FunctionDecl.Matches μ k
  | .parameters => List.Forall₂ (μ.Names (k = some 0))
  | .statement _ => Stmt.Matches μ k
  | .exprStmt => Stmt.Matches μ k
  | .forInit => Option.Rel (Stmt.Matches μ k)
  | .optional => Option.Rel (Expr.Matches μ k)
  | .expression => Expr.Matches μ k
  | .operation _ => Expr.Matches μ k
  | .unary => Expr.Matches μ k
  | .call => Expr.Matches μ k
  | .arguments => Expr.MatchesEach μ k
  | .primary => Expr.Matches μ k

end Symbols

variable {μ : Matching} {k : Place}

theorem Matching.Names.reworded {here : Prop} {t t' : Token} (h : μ.Names here t t')
    (ht : t.kind = .identifier) : t.Reworded μ.old μ.new t' ∧ t'.kind = .identifier := by
  cases h with
  | same => exact ⟨.same t, ht⟩
  | renamed _ hold => exact ⟨.word ht hold, ht⟩

theorem Expr.MatchesEach.length_eq {es es' : List Expr} (h : MatchesEach μ k es es') :
    es'.length = es.length := by
  induction es generalizing es' with
  | nil =>
      cases h
      rfl
  | cons e es ih =>
      cases h with
      | cons _ hs => exact congrArg (· + 1) (ih hs)

theorem Level.Joins.matches {level : Level} {left right e e' : Expr} {operator : Token}
    (h : level.Joins left operator right e) (he : e.Matches μ k e') :
    ∃ left' right', left.Matches μ k left' ∧ right.Matches μ k right' ∧
      level.Joins left' operator right' e' := by
  cases h with
  | or h =>
      cases he with
      | logical _ hl hr => exact ⟨_, _, hl, hr, .or h⟩
  | and h =>
      cases he with
      | logical _ hl hr => exact ⟨_, _, hl, hr, .and h⟩
  | equality h =>
      cases he with
      | binary _ hl hr => exact ⟨_, _, hl, hr, .equality h⟩
  | comparison h =>
      cases he with
      | binary _ hl hr => exact ⟨_, _, hl, hr, .comparison h⟩
  | term h =>
      cases he with
      | binary _ hl hr => exact ⟨_, _, hl, hr, .term h⟩
  | factor h =>
      cases he with
      | binary _ hl hr => exact ⟨_, _, hl, hr, .factor h⟩

/-- A loop that matches another one is made of parts that match. -/
theorem Stmt.ForForm.matches {init : Option Stmt} {condition increment : Option Expr}
    {body s s' : Stmt} (h : ForForm init condition increment body s) (hs : s.Matches μ k s') :
    ∃ init' condition' increment' body', ForForm init' condition' increment' body' s' ∧
      (∃ k, Option.Rel (Stmt.Matches μ k) init init') ∧
      (∃ k, Option.Rel (Expr.Matches μ k) condition condition') ∧
      (∃ k, Option.Rel (Expr.Matches μ k) increment increment') ∧
      ∃ k, body.Matches μ k body' := by
  induction h generalizing k s' with
  | endless =>
      cases hs with
      | loop he hbody =>
          cases he with
          | literal =>
              exact ⟨none, none, none, _, .endless, ⟨k, .none⟩, ⟨k, .none⟩, ⟨k, .none⟩, k, hbody⟩
  | loop =>
      cases hs with
      | loop he hbody =>
          exact ⟨none, some _, none, _, .loop, ⟨k, .none⟩, ⟨k, .some he⟩, ⟨k, .none⟩, k, hbody⟩
  | increment _ ih =>
      obtain ⟨init', condition', increment', body', hform, ⟨_, hinit⟩, hcondition,
        ⟨_, hincrement⟩, _, hbody⟩ := ih hs
      cases hinit
      cases hincrement
      cases hbody with
      | block _ hbody =>
          cases hbody with
          | cons hbody hrest =>
              cases hrest with
              | cons he hrest =>
                  cases hrest
                  cases he with
                  | expression he =>
                      exact ⟨none, _, some _, _, .increment hform, ⟨k, .none⟩, hcondition,
                        ⟨_, .some he⟩, _, hbody⟩
  | initializer _ ih =>
      cases hs with
      | block _ hs =>
          cases hs with
          | cons ht hrest =>
              cases hrest with
              | cons hs hrest =>
                  cases hrest
                  obtain ⟨init', condition', increment', body', hform, ⟨_, hinit⟩, hparts⟩ :=
                    ih hs
                  cases hinit
                  exact ⟨some _, _, _, _, .initializer hform, ⟨_, .some ht⟩, hparts⟩

/-- A phrase for the tree that matches, with the other name in place of the name where the tree has
it. -/
theorem Derives.reworded (hμ : ∀ {id id' : ExprId} {hop : Option Nat}, μ.ref id id' hop → id' = id)
    {x : Symbol} {i j : ExprId} {ts : List Token} {a a' : x.Tree} (h : Derives x i ts a j)
    (ha : x.Matches μ k a a') :
    ∃ ts', Token.RewordedEach μ.old μ.new ts ts' ∧ Derives x i ts' a' j := by
  induction h generalizing k with
  | noDeclarations =>
      cases ha
      exact ⟨[], .nil, .noDeclarations⟩
  | declarations _ _ ih ih₂ =>
      cases ha with
      | cons hs hss =>
          obtain ⟨ts, hts, hd⟩ := ih hs
          obtain ⟨us, hus, hds⟩ := ih₂ hss
          exact ⟨_, .append hts hus, .declarations hd hds⟩
  | baseClass hkeyword hname hlbrace _ hrbrace ih =>
      cases ha with
      | classDecl _ he hds =>
          cases he
          obtain ⟨ts, hts, hd⟩ := ih hds
          exact ⟨_, .append (.keep _ (.keep _ (.keep _ hts))) (.one _),
            .baseClass hkeyword hname hlbrace hd hrbrace⟩
  | derivedClass hkeyword hname hless hparent hlbrace _ hrbrace ih =>
      cases ha with
      | classDecl _ he hds =>
          cases he with
          | some he =>
              cases he with
              | «variable» hid ht =>
                  obtain rfl := hμ hid
                  obtain ⟨hword, hkind⟩ := ht.reworded hparent
                  obtain ⟨ts, hts, hd⟩ := ih hds
                  exact ⟨_, .append (.keep _ (.keep _ (.keep _ (.word hword (.keep _ hts)))))
                    (.one _), .derivedClass hkeyword hname hless hkind hlbrace hd hrbrace⟩
  | funDecl hkeyword _ ih =>
      cases ha with
      | function _ hd =>
          obtain ⟨ts, hts, hd⟩ := ih hd
          exact ⟨_, .keep _ hts, .funDecl hkeyword hd⟩
  | varDecl _ ih =>
      obtain ⟨ts, hts, hd⟩ := ih ha
      exact ⟨ts, hts, .varDecl hd⟩
  | statement dangling _ ih =>
      obtain ⟨ts, hts, hd⟩ := ih ha
      exact ⟨ts, hts, .statement dangling hd⟩
  | varBare hkeyword hname hsemicolon =>
      cases ha with
      | var ht he =>
          cases he
          obtain ⟨hword, hkind⟩ := ht.reworded hname
          exact ⟨_, .keep _ (.word hword (.one _)), .varBare hkeyword hkind hsemicolon⟩
  | varInit hkeyword hname hequal _ hsemicolon ih =>
      cases ha with
      | var ht he =>
          cases he with
          | some he =>
              obtain ⟨hword, hkind⟩ := ht.reworded hname
              obtain ⟨ts, hts, hd⟩ := ih he
              exact ⟨_, .append (.keep _ (.word hword (.keep _ hts))) (.one _),
                .varInit hkeyword hkind hequal hd hsemicolon⟩
  | noFunctions =>
      cases ha
      exact ⟨[], .nil, .noFunctions⟩
  | functions _ _ ih ih₂ =>
      cases ha with
      | cons hd hds =>
          obtain ⟨ts, hts, hd⟩ := ih hd
          obtain ⟨us, hus, hds⟩ := ih₂ hds
          exact ⟨_, .append hts hus, .functions hd hds⟩
  | functionBare hname hlparen hrparen hlbrace _ hrbrace ih =>
      cases ha with
      | mk _ _ hps hss =>
          cases hps
          obtain ⟨ts, hts, hd⟩ := ih hss
          exact ⟨_, .append (.keep _ (.keep _ (.keep _ (.keep _ hts)))) (.one _),
            .functionBare hname hlparen hrparen hlbrace hd hrbrace⟩
  | function hname hlparen _ hlength hrparen hlbrace _ hrbrace ih ih₂ =>
      cases ha with
      | mk _ _ hps hss =>
          obtain ⟨ts, hts, hp⟩ := ih hps
          obtain ⟨us, hus, hd⟩ := ih₂ hss
          exact ⟨_, .append (.append (.keep _ (.keep _ hts)) (.keep _ (.keep _ hus))) (.one _),
            .function hname hlparen hp (hps.length_eq ▸ hlength) hrparen hlbrace hd hrbrace⟩
  | parameter hname =>
      cases ha with
      | cons ht hps =>
          cases hps
          obtain ⟨hword, hkind⟩ := ht.reworded hname
          exact ⟨_, .word hword .nil, .parameter hkind⟩
  | parameters hname hcomma _ ih =>
      cases ha with
      | cons ht hps =>
          obtain ⟨hword, hkind⟩ := ht.reworded hname
          obtain ⟨ts, hts, hp⟩ := ih hps
          exact ⟨_, .word hword (.keep _ hts), .parameters hkind hcomma hp⟩
  | exprStatement _ ih =>
      obtain ⟨ts, hts, hd⟩ := ih ha
      exact ⟨ts, hts, .exprStatement hd⟩
  | forStatement hkeyword hlparen _ _ hsemicolon _ hrparen _ hform ih ih₂ ih₃ ih₄ =>
      obtain ⟨_, _, _, _, hform, ⟨_, hinit⟩, ⟨_, hcondition⟩, ⟨_, hincrement⟩, _, hbody⟩ :=
        hform.matches ha
      obtain ⟨ts, hts, hi⟩ := ih hinit
      obtain ⟨us, hus, hc⟩ := ih₂ hcondition
      obtain ⟨vs, hvs, hn⟩ := ih₃ hincrement
      obtain ⟨ws, hws, hb⟩ := ih₄ hbody
      exact ⟨_, .append (.append (.append (.keep _ (.keep _ hts)) hus) (.keep _ hvs))
        (.keep _ hws), .forStatement hkeyword hlparen hi hc hsemicolon hn hrparen hb hform⟩
  | ifThen dangling hkeyword hlparen _ hrparen _ ih ih₂ =>
      cases ha with
      | ifThen he hs =>
          obtain ⟨ts, hts, he⟩ := ih he
          obtain ⟨us, hus, hs⟩ := ih₂ hs
          exact ⟨_, .append (.keep _ (.keep _ hts)) (.keep _ hus),
            .ifThen dangling hkeyword hlparen he hrparen hs⟩
  | ifElse hkeyword hlparen _ hrparen _ hotherwise _ ih ih₂ ih₃ =>
      cases ha with
      | ifElse he hs hu =>
          obtain ⟨ts, hts, he⟩ := ih he
          obtain ⟨us, hus, hs⟩ := ih₂ hs
          obtain ⟨vs, hvs, hu⟩ := ih₃ hu
          exact ⟨_, .append (.append (.keep _ (.keep _ hts)) (.keep _ hus)) (.keep _ hvs),
            .ifElse hkeyword hlparen he hrparen hs hotherwise hu⟩
  | print hkeyword _ hsemicolon ih =>
      cases ha with
      | print he =>
          obtain ⟨ts, hts, he⟩ := ih he
          exact ⟨_, .append (.keep _ hts) (.one _), .print hkeyword he hsemicolon⟩
  | ret hkeyword _ hsemicolon ih =>
      cases ha with
      | ret _ he =>
          obtain ⟨ts, hts, he⟩ := ih he
          exact ⟨_, .append (.keep _ hts) (.one _), .ret hkeyword he hsemicolon⟩
  | whileStatement hkeyword hlparen _ hrparen _ ih ih₂ =>
      cases ha with
      | loop he hs =>
          obtain ⟨ts, hts, he⟩ := ih he
          obtain ⟨us, hus, hs⟩ := ih₂ hs
          exact ⟨_, .append (.keep _ (.keep _ hts)) (.keep _ hus),
            .whileStatement hkeyword hlparen he hrparen hs⟩
  | block hlbrace _ hrbrace ih =>
      cases ha with
      | block _ hs =>
          obtain ⟨ts, hts, hs⟩ := ih hs
          exact ⟨_, .append (.keep _ hts) (.one _), .block hlbrace hs hrbrace⟩
  | exprStmt _ hsemicolon ih =>
      cases ha with
      | expression he =>
          obtain ⟨ts, hts, he⟩ := ih he
          exact ⟨_, .append hts (.one _), .exprStmt he hsemicolon⟩
  | forVar _ ih =>
      cases ha with
      | some hs =>
          obtain ⟨ts, hts, hs⟩ := ih hs
          exact ⟨ts, hts, .forVar hs⟩
  | forExpr _ ih =>
      cases ha with
      | some hs =>
          obtain ⟨ts, hts, hs⟩ := ih hs
          exact ⟨ts, hts, .forExpr hs⟩
  | forNone hsemicolon =>
      cases ha
      exact ⟨_, .one _, .forNone hsemicolon⟩
  | absent =>
      cases ha
      exact ⟨[], .nil, .absent⟩
  | present _ ih =>
      cases ha with
      | some he =>
          obtain ⟨ts, hts, he⟩ := ih he
          exact ⟨ts, hts, .present he⟩
  | assign hname hequal _ ih =>
      cases ha with
      | assign hid ht he =>
          obtain rfl := hμ hid
          obtain ⟨hword, hkind⟩ := ht.reworded hname
          obtain ⟨ts, hts, he⟩ := ih he
          exact ⟨_, .word hword (.keep _ hts), .assign hkind hequal he⟩
  | set _ hdot hname hequal _ ih ih₂ =>
      cases ha with
      | set _ he hu =>
          obtain ⟨ts, hts, he⟩ := ih he
          obtain ⟨us, hus, hu⟩ := ih₂ hu
          exact ⟨_, .append hts (.keep _ (.keep _ (.keep _ hus))), .set he hdot hname hequal hu⟩
  | operation _ ih =>
      obtain ⟨ts, hts, he⟩ := ih ha
      exact ⟨ts, hts, .operation he⟩
  | operand _ ih =>
      obtain ⟨ts, hts, he⟩ := ih ha
      exact ⟨ts, hts, .operand he⟩
  | tighter _ ih =>
      obtain ⟨ts, hts, he⟩ := ih ha
      exact ⟨ts, hts, .tighter he⟩
  | join _ _ hjoins ih ih₂ =>
      obtain ⟨_, _, hleft, hright, hjoins⟩ := hjoins.matches ha
      obtain ⟨ts, hts, he⟩ := ih hleft
      obtain ⟨us, hus, hu⟩ := ih₂ hright
      exact ⟨_, .append hts (.keep _ hus), .join he hu hjoins⟩
  | unary hoperator _ ih =>
      cases ha with
      | unary _ he =>
          obtain ⟨ts, hts, he⟩ := ih he
          exact ⟨_, .keep _ hts, .unary hoperator he⟩
  | call _ ih =>
      obtain ⟨ts, hts, he⟩ := ih ha
      exact ⟨ts, hts, .call he⟩
  | callee _ ih =>
      obtain ⟨ts, hts, he⟩ := ih ha
      exact ⟨ts, hts, .callee he⟩
  | callBare _ hlparen hrparen ih =>
      cases ha with
      | call _ he hes =>
          cases hes
          obtain ⟨ts, hts, he⟩ := ih he
          exact ⟨_, .append hts (.two _ _), .callBare he hlparen hrparen⟩
  | callWith _ hlparen _ hlength hrparen ih ih₂ =>
      cases ha with
      | call _ he hes =>
          have hlength' := hes.length_eq ▸ hlength
          obtain ⟨ts, hts, he⟩ := ih he
          obtain ⟨us, hus, hes⟩ := ih₂ hes
          exact ⟨_, .append (.append hts (.keep _ hus)) (.one _),
            .callWith he hlparen hes hlength' hrparen⟩
  | get _ hdot hname ih =>
      cases ha with
      | get _ he =>
          obtain ⟨ts, hts, he⟩ := ih he
          exact ⟨_, .append hts (.two _ _), .get he hdot hname⟩
  | argument _ ih =>
      cases ha with
      | cons he hes =>
          cases hes
          obtain ⟨ts, hts, he⟩ := ih he
          exact ⟨ts, hts, .argument he⟩
  | arguments _ hcomma _ ih ih₂ =>
      cases ha with
      | cons he hes =>
          obtain ⟨ts, hts, he⟩ := ih he
          obtain ⟨us, hus, hes⟩ := ih₂ hes
          exact ⟨_, .append hts (.keep _ hus), .arguments he hcomma hes⟩
  | number hkind =>
      cases ha
      exact ⟨_, .one _, .number hkind⟩
  | string hkind =>
      cases ha
      exact ⟨_, .one _, .string hkind⟩
  | trueWord hkind =>
      cases ha
      exact ⟨_, .one _, .trueWord hkind⟩
  | falseWord hkind =>
      cases ha
      exact ⟨_, .one _, .falseWord hkind⟩
  | nilWord hkind =>
      cases ha
      exact ⟨_, .one _, .nilWord hkind⟩
  | this hkind =>
      cases ha with
      | this hid =>
          obtain rfl := hμ hid
          exact ⟨_, .one _, .this hkind⟩
  | reference hkind =>
      cases ha with
      | «variable» hid ht =>
          obtain rfl := hμ hid
          obtain ⟨hword, hkind⟩ := ht.reworded hkind
          exact ⟨_, .word hword .nil, .reference hkind⟩
  | grouping hlparen _ hrparen ih =>
      cases ha with
      | grouping he =>
          obtain ⟨ts, hts, he⟩ := ih he
          exact ⟨_, .append (.keep _ hts) (.one _), .grouping hlparen he hrparen⟩
  | super hkeyword hdot hmethod =>
      cases ha with
      | super _ hid =>
          obtain rfl := hμ hid
          exact ⟨_, .keep _ (.two _ _), .super hkeyword hdot hmethod⟩

end ScriptLang
