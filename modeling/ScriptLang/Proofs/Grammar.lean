import ScriptLang.Stmt.Parser

/-! The grammar of scripts. A phrase of a symbol is a list of tokens together with the tree it
stands for and the ids of its references, which are numbered in the order in which they stand. -/

namespace ScriptLang

/-- The symbols of the grammar. A statement dangles when an `else` that follows it would belong
to it. -/
inductive Symbol where
  | declarations
  | declaration
  | varDecl
  | functions
  | function
  | parameters
  | statement (dangling : Bool)
  | exprStmt
  | forInit
  | optional
  | expression
  | operation (levels : List Level)
  | unary
  | call
  | arguments
  | primary

namespace Symbol

/-- What the phrases of a symbol stand for. -/
abbrev Tree : Symbol → Type
  | declarations => List Stmt
  | declaration => Stmt
  | varDecl => Stmt
  | functions => List FunctionDecl
  | function => FunctionDecl
  | parameters => List Token
  | statement _ => Stmt
  | exprStmt => Stmt
  | forInit => Option Stmt
  | optional => Option Expr
  | expression => Expr
  | operation _ => Expr
  | unary => Expr
  | call => Expr
  | arguments => List Expr
  | primary => Expr

end Symbol

/-- The operators of each level, and what they make of their operands. -/
inductive Level.Joins : Level → Expr → Token → Expr → Expr → Prop where
  | or {left t right} : t.kind = .kwOr → Joins .or left t right (.logical left t right)
  | and {left t right} : t.kind = .kwAnd → Joins .and left t right (.logical left t right)
  | equality {left t right} : t.kind = .bangEqual ∨ t.kind = .equalEqual →
      Joins .equality left t right (.binary left t right)
  | comparison {left t right} : t.kind = .greater ∨ t.kind = .greaterEqual ∨ t.kind = .less ∨
      t.kind = .lessEqual → Joins .comparison left t right (.binary left t right)
  | term {left t right} : t.kind = .minus ∨ t.kind = .plus →
      Joins .term left t right (.binary left t right)
  | factor {left t right} : t.kind = .slash ∨ t.kind = .star →
      Joins .factor left t right (.binary left t right)

theorem Level.joins_iff {level : Level} {left right e : Expr} {t : Token} :
    level.Joins left t right e ↔ level.accepts t.kind = true ∧ e = level.join left t right := by
  constructor
  · rintro (h | h | (h | h) | (h | h | h | h) | (h | h) | (h | h)) <;>
      simp [Level.accepts, Level.join, h]
  · rintro ⟨h, rfl⟩
    revert h
    generalize hkind : t.kind = kind
    cases level <;> cases kind <;> intro h <;> first
      | (constructor; simp [hkind]; done)
      | cases h

/-- The block and `while` form of `for (initializer condition; increment) body`: a condition left
out is `true`, and braces stand around the body for an increment, around the loop for an
initializer. -/
inductive Stmt.ForForm : Option Stmt → Option Expr → Option Expr → Stmt → Stmt → Prop where
  | endless {body} : ForForm none none none body (.loop (.literal (.bool true)) body)
  | loop {condition body} : ForForm none (some condition) none body (.loop condition body)
  | increment {condition e body s} : ForForm none condition none (.block [body, .expression e]) s →
      ForForm none condition (some e) body s
  | initializer {t condition increment body s} : ForForm none condition increment body s →
      ForForm (some t) condition increment body (.block [t, s])

theorem Stmt.forForm_iff {init : Option Stmt} {condition increment : Option Expr}
    {body s : Stmt} : ForForm init condition increment body s ↔
      s = .forLoop init condition increment body := by
  constructor
  · intro h
    induction h with
    | endless | loop => rfl
    | increment _ ih => exact ih
    | initializer _ ih => rw [ih]; rfl
  · rintro rfl
    have hloop (body : Stmt) :
        ForForm none condition none body (.forLoop none condition none body) := by
      cases condition with
      | none => exact .endless
      | some e => exact .loop
    have hnone :
        ForForm none condition increment body (.forLoop none condition increment body) := by
      cases increment with
      | none => exact hloop body
      | some e => exact .increment (hloop _)
    cases init with
    | none => exact hnone
    | some t => exact .initializer hnone

/-- `Derives x i ts a j`: the tokens `ts` are a phrase of the symbol `x` that stands for `a`, and
its references have the ids from `i` up to but not including `j`. -/
inductive Derives : (x : Symbol) → ExprId → List Token → x.Tree → ExprId → Prop where
  /-- program → declaration* EOF, without the end token. -/
  | noDeclarations {i} : Derives .declarations i [] [] i
  | declarations {i ts s j us ss k} :
      Derives .declaration i ts s j → Derives .declarations j us ss k →
      Derives .declarations i (ts ++ us) (s :: ss) k
  /-- declaration → classDecl | funDecl | varDecl | statement, where classDecl is
  `"class" IDENT ( "<" IDENT )? "{" function* "}"` and funDecl is `"fun" function`. -/
  | baseClass {i keyword name lbrace ts methods j rbrace} :
      keyword.kind = .kwClass → name.kind = .identifier → lbrace.kind = .leftBrace →
      Derives .functions i ts methods j → rbrace.kind = .rightBrace →
      Derives .declaration i (keyword :: name :: lbrace :: ts ++ [rbrace])
        (.classDecl name none methods) j
  | derivedClass {i keyword name less parent lbrace ts methods j rbrace} :
      keyword.kind = .kwClass → name.kind = .identifier → less.kind = .less →
      parent.kind = .identifier → lbrace.kind = .leftBrace →
      Derives .functions (i + 1) ts methods j → rbrace.kind = .rightBrace →
      Derives .declaration i (keyword :: name :: less :: parent :: lbrace :: ts ++ [rbrace])
        (.classDecl name (some (.variable i parent)) methods) j
  | funDecl {i keyword ts d j} :
      keyword.kind = .kwFun → Derives .function i ts d j →
      Derives .declaration i (keyword :: ts) (.function d) j
  | varDecl {i ts s j} : Derives .varDecl i ts s j → Derives .declaration i ts s j
  | statement {i ts s j} (dangling : Bool) :
      Derives (.statement dangling) i ts s j → Derives .declaration i ts s j
  /-- varDecl → "var" IDENT ( "=" expression )? ";" -/
  | varBare {i keyword name semicolon} :
      keyword.kind = .kwVar → name.kind = .identifier → semicolon.kind = .semicolon →
      Derives .varDecl i [keyword, name, semicolon] (.var name none) i
  | varInit {i keyword name equal ts e j semicolon} :
      keyword.kind = .kwVar → name.kind = .identifier → equal.kind = .equal →
      Derives .expression i ts e j → semicolon.kind = .semicolon →
      Derives .varDecl i (keyword :: name :: equal :: ts ++ [semicolon]) (.var name (some e)) j
  /-- function* -/
  | noFunctions {i} : Derives .functions i [] [] i
  | functions {i ts d j us ds k} :
      Derives .function i ts d j → Derives .functions j us ds k →
      Derives .functions i (ts ++ us) (d :: ds) k
  /-- function → IDENT "(" parameters? ")" block -/
  | functionBare {i name lparen rparen lbrace ts body j rbrace} :
      name.kind = .identifier → lparen.kind = .leftParen → rparen.kind = .rightParen →
      lbrace.kind = .leftBrace → Derives .declarations i ts body j → rbrace.kind = .rightBrace →
      Derives .function i (name :: lparen :: rparen :: lbrace :: ts ++ [rbrace])
        (.mk name [] body) j
  | function {i name lparen ps params j rparen lbrace ts body k rbrace} :
      name.kind = .identifier → lparen.kind = .leftParen →
      Derives .parameters i ps params j → params.length ≤ 255 →
      rparen.kind = .rightParen → lbrace.kind = .leftBrace →
      Derives .declarations j ts body k → rbrace.kind = .rightBrace →
      Derives .function i (name :: lparen :: ps ++ rparen :: lbrace :: ts ++ [rbrace])
        (.mk name params body) k
  /-- parameters → IDENT ( "," IDENT )* -/
  | parameter {i name} : name.kind = .identifier → Derives .parameters i [name] [name] i
  | parameters {i name comma ts params j} :
      name.kind = .identifier → comma.kind = .comma → Derives .parameters i ts params j →
      Derives .parameters i (name :: comma :: ts) (name :: params) j
  /-- statement → exprStmt | forStmt | ifStmt | printStmt | returnStmt | whileStmt | block -/
  | exprStatement {i ts s j} :
      Derives .exprStmt i ts s j → Derives (.statement false) i ts s j
  | forStatement {i keyword lparen ts init j us condition k semicolon vs increment l rparen ws
      body m s} {dangling : Bool} :
      keyword.kind = .kwFor → lparen.kind = .leftParen → Derives .forInit i ts init j →
      Derives .optional j us condition k → semicolon.kind = .semicolon →
      Derives .optional k vs increment l → rparen.kind = .rightParen →
      Derives (.statement dangling) l ws body m → Stmt.ForForm init condition increment body s →
      Derives (.statement dangling) i
        (keyword :: lparen :: ts ++ us ++ semicolon :: vs ++ rparen :: ws) s m
  | ifThen {i keyword lparen ts condition j rparen us s k} (dangling : Bool) :
      keyword.kind = .kwIf → lparen.kind = .leftParen → Derives .expression i ts condition j →
      rparen.kind = .rightParen → Derives (.statement dangling) j us s k →
      Derives (.statement true) i (keyword :: lparen :: ts ++ rparen :: us) (.ifThen condition s) k
  /-- An `else` belongs to the nearest `if` before it: the branch before it must not dangle. -/
  | ifElse {i keyword lparen ts condition j rparen us s k otherwise vs t l} {dangling : Bool} :
      keyword.kind = .kwIf → lparen.kind = .leftParen → Derives .expression i ts condition j →
      rparen.kind = .rightParen → Derives (.statement false) j us s k → otherwise.kind = .kwElse →
      Derives (.statement dangling) k vs t l →
      Derives (.statement dangling) i (keyword :: lparen :: ts ++ rparen :: us ++ otherwise :: vs)
        (.ifElse condition s t) l
  | print {i keyword ts e j semicolon} :
      keyword.kind = .kwPrint → Derives .expression i ts e j → semicolon.kind = .semicolon →
      Derives (.statement false) i (keyword :: ts ++ [semicolon]) (.print e) j
  | ret {i keyword ts e j semicolon} :
      keyword.kind = .kwReturn → Derives .optional i ts e j → semicolon.kind = .semicolon →
      Derives (.statement false) i (keyword :: ts ++ [semicolon]) (.ret keyword e) j
  | whileStatement {i keyword lparen ts condition j rparen us s k} {dangling : Bool} :
      keyword.kind = .kwWhile → lparen.kind = .leftParen → Derives .expression i ts condition j →
      rparen.kind = .rightParen → Derives (.statement dangling) j us s k →
      Derives (.statement dangling) i (keyword :: lparen :: ts ++ rparen :: us)
        (.loop condition s) k
  | block {i lbrace ts body j rbrace} :
      lbrace.kind = .leftBrace → Derives .declarations i ts body j → rbrace.kind = .rightBrace →
      Derives (.statement false) i (lbrace :: ts ++ [rbrace]) (.block body) j
  /-- exprStmt → expression ";" -/
  | exprStmt {i ts e j semicolon} :
      Derives .expression i ts e j → semicolon.kind = .semicolon →
      Derives .exprStmt i (ts ++ [semicolon]) (.expression e) j
  /-- forInit → varDecl | exprStmt | ";" -/
  | forVar {i ts s j} : Derives .varDecl i ts s j → Derives .forInit i ts (some s) j
  | forExpr {i ts s j} : Derives .exprStmt i ts s j → Derives .forInit i ts (some s) j
  | forNone {i semicolon} : semicolon.kind = .semicolon → Derives .forInit i [semicolon] none i
  /-- expression? -/
  | absent {i} : Derives .optional i [] none i
  | present {i ts e j} : Derives .expression i ts e j → Derives .optional i ts (some e) j
  /-- assignment → ( call "." )? IDENT "=" assignment | logic_or -/
  | assign {i name equal ts e j} :
      name.kind = .identifier → equal.kind = .equal → Derives .expression (i + 1) ts e j →
      Derives .expression i (name :: equal :: ts) (.assign i name e) j
  | set {i ts object j dot name equal us e k} :
      Derives .call i ts object j → dot.kind = .dot → name.kind = .identifier →
      equal.kind = .equal → Derives .expression j us e k →
      Derives .expression i (ts ++ dot :: name :: equal :: us) (.set object name e) k
  | operation {i ts e j} :
      Derives (.operation [.or, .and, .equality, .comparison, .term, .factor]) i ts e j →
      Derives .expression i ts e j
  /-- Each level joins phrases of the next tighter one, to the left; below all of them stands
  unary. -/
  | operand {i ts e j} : Derives .unary i ts e j → Derives (.operation []) i ts e j
  | tighter {level levels i ts e j} :
      Derives (.operation levels) i ts e j → Derives (.operation (level :: levels)) i ts e j
  | join {level levels i ts left j operator us right k e} :
      Derives (.operation (level :: levels)) i ts left j →
      Derives (.operation levels) j us right k → level.Joins left operator right e →
      Derives (.operation (level :: levels)) i (ts ++ operator :: us) e k
  /-- unary → ( "!" | "-" ) unary | call -/
  | unary {i operator ts e j} :
      operator.kind = .bang ∨ operator.kind = .minus → Derives .unary i ts e j →
      Derives .unary i (operator :: ts) (.unary operator e) j
  | call {i ts e j} : Derives .call i ts e j → Derives .unary i ts e j
  /-- call → primary ( "(" arguments? ")" | "." IDENT )* -/
  | callee {i ts e j} : Derives .primary i ts e j → Derives .call i ts e j
  | callBare {i ts e j lparen rparen} :
      Derives .call i ts e j → lparen.kind = .leftParen → rparen.kind = .rightParen →
      Derives .call i (ts ++ [lparen, rparen]) (.call e rparen []) j
  | callWith {i ts e j lparen us arguments k rparen} :
      Derives .call i ts e j → lparen.kind = .leftParen → Derives .arguments j us arguments k →
      arguments.length ≤ 255 → rparen.kind = .rightParen →
      Derives .call i (ts ++ lparen :: us ++ [rparen]) (.call e rparen arguments) k
  | get {i ts e j dot name} :
      Derives .call i ts e j → dot.kind = .dot → name.kind = .identifier →
      Derives .call i (ts ++ [dot, name]) (.get e name) j
  /-- arguments → expression ( "," expression )* -/
  | argument {i ts e j} : Derives .expression i ts e j → Derives .arguments i ts [e] j
  | arguments {i ts e j comma us es k} :
      Derives .expression i ts e j → comma.kind = .comma → Derives .arguments j us es k →
      Derives .arguments i (ts ++ comma :: us) (e :: es) k
  /-- primary → NUMBER | STRING | "true" | "false" | "nil" | "this" | IDENT
  | "(" expression ")" | "super" "." IDENT -/
  | number {i t x} : t.kind = .number x → Derives .primary i [t] (.literal (.number x)) i
  | string {i t s} : t.kind = .string s → Derives .primary i [t] (.literal (.string s)) i
  | trueWord {i t} : t.kind = .kwTrue → Derives .primary i [t] (.literal (.bool true)) i
  | falseWord {i t} : t.kind = .kwFalse → Derives .primary i [t] (.literal (.bool false)) i
  | nilWord {i t} : t.kind = .kwNil → Derives .primary i [t] (.literal .nil) i
  | this {i t} : t.kind = .kwThis → Derives .primary i [t] (.this i t) (i + 1)
  | reference {i t} : t.kind = .identifier → Derives .primary i [t] (.variable i t) (i + 1)
  | grouping {i lparen ts e j rparen} :
      lparen.kind = .leftParen → Derives .expression i ts e j → rparen.kind = .rightParen →
      Derives .primary i (lparen :: ts ++ [rparen]) (.grouping e) j
  | super {i keyword dot method} :
      keyword.kind = .kwSuper → dot.kind = .dot → method.kind = .identifier →
      Derives .primary i [keyword, dot, method] (.super i keyword method) (i + 1)

end ScriptLang
