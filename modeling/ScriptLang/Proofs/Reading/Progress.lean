import ScriptLang.Proofs.Reading.Seams
import ScriptLang.Proofs.Scanning

/-! Reading ends, and stays among the tokens. No rule of the parser moves the cursor back or past
the end token, and no loop of it takes a turn and goes on without taking a token. -/

namespace ScriptLang

/-! ### Positions -/

/-- The cursor stands at the position `k` of these tokens. -/
structure Cursor.At (tokens : List Token) (k : Nat) (c : Cursor) : Prop where
  peek : tokens[k]? = some c.peek
  left : tokens.drop k = c.rest ++ [c.eof]

namespace Cursor

theorem at_iff {tokens : List Token} {k : Nat} {c : Cursor} :
    c.At tokens k ↔ tokens.drop k = c.rest ++ [c.eof] := by
  refine ⟨At.left, fun hleft => ⟨?_, hleft⟩⟩
  rw [← List.head?_drop, hleft, peek]
  cases c.rest <;> rfl

/-- The cursor moves on by as many positions as tokens are taken. -/
theorem At.took {tokens ts : List Token} {k : Nat} {c d : Cursor} (h : c.At tokens k)
    (ht : c.Took ts d) : d.At tokens (k + ts.length) := by
  rw [at_iff, ← List.drop_drop, h.left, ht.rest, ht.eof, List.append_assoc, List.drop_left]

theorem At.leads {tokens : List Token} {k : Nat} {c d : Cursor} (h : c.At tokens k)
    (hd : c.Leads d) : ∃ l, k ≤ l ∧ d.At tokens l := by
  obtain ⟨ts, ht⟩ := hd
  exact ⟨k + ts.length, Nat.le_add_right k _, h.took ht⟩

end Cursor

/-! ### Rules -/

/-- The rules of the parser. Those that go on after something that was read have it as an
argument. -/
inductive Rule : Type → Type 1 where
  | expression : Rule Expr
  | operation (levels : List Level) : Rule Expr
  | operationRest (level : Level) (tighter : List Level) (left : Expr) : Rule Expr
  | unary : Rule Expr
  | callRest (callee : Expr) : Rule Expr
  | arguments (front : List Expr) : Rule (List Expr)
  | primary : Rule Expr
  | expressionUnless (kind : Kind) : Rule (Option Expr)
  | initializer : Rule (Option Expr)
  | varDeclaration : Rule Stmt
  | expressionStatement : Rule Stmt
  | printStatement : Rule Stmt
  | returnStatement (keyword : Token) : Rule Stmt
  | loopInitializer : Rule (Option Stmt)
  | parameters (front : List Token) : Rule (List Token)
  | superclass : Rule (Option Expr)
  | declaration : Rule Stmt
  | classDeclaration : Rule Stmt
  | methods (front : List FunctionDecl) : Rule (List FunctionDecl)
  | function (what : Callable) : Rule FunctionDecl
  | statement : Rule Stmt
  | forStatement : Rule Stmt
  | ifStatement : Rule Stmt
  | whileStatement : Rule Stmt
  | block (front : List Stmt) : Rule (List Stmt)
  | program (front : List Stmt) : Rule (List Stmt)

namespace Rule

/-- Reads by a rule within a budget. -/
def read {α : Type} : Rule α → Nat → Parser α
  | expression, n => Parser.expression n
  | operation levels, n => Parser.operation n levels
  | operationRest level tighter left, n => Parser.operationRest n level tighter left
  | unary, n => Parser.unary n
  | callRest callee, n => Parser.callRest n callee
  | arguments front, n => Parser.arguments n front
  | primary, n => Parser.primary n
  | expressionUnless kind, n => Parser.expressionUnless n kind
  | initializer, n => Parser.initializer n
  | varDeclaration, n => Parser.varDeclaration n
  | expressionStatement, n => Parser.expressionStatement n
  | printStatement, n => Parser.printStatement n
  | returnStatement keyword, n => Parser.returnStatement n keyword
  | loopInitializer, n => Parser.loopInitializer n
  | parameters front, n => Parser.parameters n front
  | superclass, _ => Parser.superclass
  | declaration, n => Parser.declaration n
  | classDeclaration, n => Parser.classDeclaration n
  | methods front, n => Parser.methods n front
  | function what, n => Parser.function n what
  | statement, n => Parser.statement n
  | forStatement, n => Parser.forStatement n
  | ifStatement, n => Parser.ifStatement n
  | whileStatement, n => Parser.whileStatement n
  | block front, n => Parser.block n front
  | program front, n => Parser.program n front

theorem kindred {α : Type} (rule : Rule α) (K : ExactKinship) (m n : Nat) :
    Parser.Kindred K.toKinship Eq (rule.read n) (rule.read (m + n)) := by
  cases rule with
  | expression => exact Parser.expression_kindred K m n
  | operation levels => exact Parser.operation_kindred K m n levels
  | operationRest level tighter left =>
      exact Parser.operationRest_kindred K m n level tighter left
  | unary => exact Parser.unary_kindred K m n
  | callRest callee => exact Parser.callRest_kindred K m n callee
  | arguments front => exact Parser.arguments_kindred K m n front
  | primary => exact Parser.primary_kindred K m n
  | expressionUnless kind => exact Parser.expressionUnless_kindred K m n kind
  | initializer => exact Parser.initializer_kindred K m n
  | varDeclaration => exact Parser.varDeclaration_kindred K m n
  | expressionStatement => exact Parser.expressionStatement_kindred K m n
  | printStatement => exact Parser.printStatement_kindred K m n
  | returnStatement keyword => exact Parser.returnStatement_kindred K m n keyword
  | loopInitializer => exact Parser.loopInitializer_kindred K m n
  | parameters front => exact Parser.parameters_kindred K m n front
  | superclass => exact Parser.superclass_kindred K
  | declaration => exact Parser.declaration_kindred K m n
  | classDeclaration => exact Parser.classDeclaration_kindred K m n
  | methods front => exact Parser.methods_kindred K m n front
  | function what => exact Parser.function_kindred K m n what
  | statement => exact Parser.statement_kindred K m n
  | forStatement => exact Parser.forStatement_kindred K m n
  | ifStatement => exact Parser.ifStatement_kindred K m n
  | whileStatement => exact Parser.whileStatement_kindred K m n
  | block front => exact Parser.block_kindred K m n front
  | program front => exact Parser.program_kindred K m n front

/-- No rule moves the cursor back, whether it succeeds or fails. -/
theorem leads {α : Type} (rule : Rule α) (n : Nat) (c : Cursor) :
    (rule.read n c).Satisfies (fun _ d => c.Leads d) c.Leads True := by
  have hkindred := rule.kindred (.onward c) 0 n c c ⟨rfl, .refl c⟩
  rw [Nat.zero_add] at hkindred
  cases hread : rule.read n c with
  | ok a d =>
      rw [hread] at hkindred
      exact hkindred.2.2
  | fail e d =>
      rw [hread] at hkindred
      exact hkindred.2.2
  | exhausted => trivial

end Rule

/-! ### Loops -/

/-- A loop of the parser: a turn either goes on with a new state or leaves with a value. -/
structure Loop where
  State : Type
  Value : Type
  run : Nat → State → Parser Value
  turn : Nat → State → Parser (State ⊕ Value)
  run_succ (n : Nat) (s : State) : run (n + 1) s = do
    match ← turn n s with
    | .inl s => run n s
    | .inr a => pure a

namespace Loop

/-- The declarations of a program or block. -/
def declarations (listing : Listing) : Loop where
  State := List Stmt
  Value := List Stmt
  run := listing.read
  turn n front := do
    if ← listing.ended then
      listing.close
      pure (.inr front.reverse)
    else
      let s ← Parser.recover (Parser.declaration n)
      pure (.inl (s.toList ++ front))
  run_succ n front := by
    rw [listing.read_succ, bind_assoc]
    refine bind_congr fun ended => ?_
    cases ended <;> simp

/-- The methods of a class. -/
def methods : Loop where
  State := List FunctionDecl
  Value := List FunctionDecl
  run := Parser.methods
  turn n front := do
    if ← Parser.nextOrEnd .rightBrace then pure (.inr front.reverse)
    else
      let method ← Parser.function n .method
      pure (.inl (method :: front))
  run_succ n front := by
    rw [Parser.methods, bind_assoc]
    refine bind_congr fun ended => ?_
    cases ended <;> simp

/-- The parameters of a function. -/
def parameters : Loop where
  State := List Token
  Value := List Token
  run := Parser.parameters
  turn _ front := do
    Parser.limit (maxArity ≤ front.length) .tooManyParameters
    let name ← Parser.expect .identifier .noParameterName
    match ← Parser.take? .comma with
    | some _ => pure (.inl (name :: front))
    | none => pure (.inr (name :: front).reverse)
  run_succ n front := by
    simp only [Parser.parameters, bind_assoc]
    refine bind_congr fun _ => bind_congr fun name => bind_congr fun comma => ?_
    cases comma <;> simp

/-- The arguments of a call. -/
def arguments : Loop where
  State := List Expr
  Value := List Expr
  run := Parser.arguments
  turn n front := do
    Parser.limit (maxArity ≤ front.length) .tooManyArguments
    let argument ← Parser.expression n
    match ← Parser.take? .comma with
    | some _ => pure (.inl (argument :: front))
    | none => pure (.inr (argument :: front).reverse)
  run_succ n front := by
    simp only [Parser.arguments, bind_assoc]
    refine bind_congr fun _ => bind_congr fun argument => bind_congr fun comma => ?_
    cases comma <;> simp

/-- The loops over declarations, methods, parameters and arguments. -/
def all : List Loop :=
  [declarations .program, declarations .block, methods, parameters, arguments]

/-- A turn takes a token or leaves the loop, with a value or an error. -/
def Advances (loop : Loop) : Prop := ∀ n s c,
  (loop.turn n s c).Satisfies (fun next d => ∃ ts, c.Took ts d ∧ (next.isLeft = true → ts ≠ []))
    c.Leads (n < 16 * c.rest.length + 12)

theorem declarations_advances (listing : Listing) : (declarations listing).Advances := by
  intro n (front : List Stmt) c
  have hturn : ((do
      let s ← Parser.recover (Parser.declaration n)
      pure (.inl (s.toList ++ front)) : Parser (List Stmt ⊕ List Stmt)) c).Satisfies
      (fun next d => ∃ ts, c.Took ts d ∧ (c.rest ≠ [] → next.isLeft = true → ts ≠ []))
      c.Leads (n < 16 * c.rest.length + 12) := by
    refine Parser.satisfies_recover ((Parser.readsStatements n).declaration c) ?_ ?_
    · rintro s d ⟨ts, ht, hne, -⟩
      exact ⟨ts, ht, fun _ _ => hne rfl⟩
    · intro d ts ht hne _
      exact ⟨ts, ht, fun hc _ => hne hc⟩
  cases listing with
  | program =>
      refine Parser.satisfies_atEnd (fun _ => ?_) fun hc => ?_
      · exact ⟨[], .refl c, fun h => absurd h Bool.false_ne_true⟩
      refine hturn.mono ?_ (fun _ => id) id
      rintro next d ⟨ts, ht, hne⟩
      exact ⟨ts, ht, hne hc⟩
  | block =>
      refine Parser.satisfies_nextOrEnd ?_ fun t rest hrest _ => ?_
      · simp only [if_true, Listing.close, bind_assoc]
        refine Parser.satisfies_expect (Cursor.Leads.refl c) fun rbrace rest hrest _ => ?_
        exact ⟨[rbrace], .one hrest, fun h => absurd h Bool.false_ne_true⟩
      · refine hturn.mono ?_ (fun _ => id) id
        rintro next d ⟨ts, ht, hne⟩
        exact ⟨ts, ht, hne (by simp [hrest])⟩

theorem methods_advances : methods.Advances := by
  intro n front c
  refine Parser.satisfies_nextOrEnd ⟨[], .refl c, nofun⟩ fun _ _ _ _ => ?_
  refine Parser.satisfies_bind (((Parser.readsStatements n).function .method c).mono
    (fun _ _ => id) (fun _ => id) (by omega)) ?_
  rintro method d ⟨ts, ht, hne, -⟩
  exact ⟨ts, ht, fun _ => hne rfl⟩

theorem parameters_advances : parameters.Advances := by
  intro n front c
  refine Parser.satisfies_limit fun c' hc _ _ _ => ?_
  refine Parser.satisfies_expect hc.leads fun name rest hname _ => ?_
  have htake := hc.trans (.one hname)
  refine Parser.satisfies_take? (fun comma rest' hcomma _ => ?_) fun _ => ?_
  · exact ⟨_, htake.trans (.one hcomma), by simp⟩
  · exact ⟨_, htake, nofun⟩

theorem arguments_advances : arguments.Advances := by
  intro n front c
  refine Parser.satisfies_limit fun c' hc _ hrest _ => ?_
  refine Parser.satisfies_bind (((Parser.readsExpressions n).expression c').mono
    (fun _ _ => id) (fun d hd => hc.leads.trans hd) (by rw [hrest]; omega)) ?_
  rintro argument d ⟨ts, ht, -, -⟩
  have htake := hc.trans ht
  refine Parser.satisfies_take? (fun comma rest' hcomma _ => ?_) fun _ => ?_
  · exact ⟨_, htake.trans (.one hcomma), by simp⟩
  · exact ⟨_, htake, nofun⟩

theorem advances_of_mem_all {loop : Loop} (h : loop ∈ all) : loop.Advances := by
  simp only [all, List.mem_cons, List.not_mem_nil, or_false] at h
  rcases h with rfl | rfl | rfl | rfl | rfl
  · exact declarations_advances .program
  · exact declarations_advances .block
  · exact methods_advances
  · exact parameters_advances
  · exact arguments_advances

end Loop

/-! ### Programs -/

/-- Tokens whose one end token is the last are read to that token, with a program or with errors,
and a larger budget does not change what is read. From a position among the tokens every rule
leads to one that is no earlier and still among them, whether it succeeds or fails. A turn of a
loop over declarations, methods, parameters or arguments leaves the loop or leads to a later
position. The tokens of every script have their one end token last. -/
theorem reading_stays_among_tokens (body : List Token) (eof : Token) (first : ExprId)
    (hbody : ∀ t ∈ body, t.isEof = false) (heof : eof.isEof = true) :
    let tokens := body ++ [eof]
    let start : Cursor := ⟨body, eof, first, []⟩
    (start.At tokens 0 ∧ ∃ ss c,
      (∀ n ≥ Parsed.budget body.length, Parser.program n [] start = .ok ss c) ∧
      c.At tokens body.length ∧ c.peek = eof ∧ Parsed.ofTokens tokens first =
        ⟨if c.errors.isEmpty then .ok ss else .error c.errors.reverse, c.nextId⟩) ∧
    (∀ {α : Type} (rule : Rule α) (n : Nat) (c : Cursor) (k : Nat), c.At tokens k →
      (rule.read n c).Satisfies (fun _ d => ∃ l, k ≤ l ∧ d.At tokens l)
        (fun d => ∃ l, k ≤ l ∧ d.At tokens l) True) ∧
    (∀ loop ∈ Loop.all, ∀ (n : Nat) (s : loop.State) (c : Cursor) (k : Nat), c.At tokens k →
      (loop.turn n s c).Satisfies
        (fun next d => ∃ l, k ≤ l ∧ (next.isLeft = true → k < l) ∧ d.At tokens l)
        (fun d => ∃ l, k ≤ l ∧ d.At tokens l) (n < Parsed.budget c.rest.length)) ∧
    ∀ source : Source, ∃ body eof, source.tokens = body ++ [eof] ∧
      (∀ t ∈ body, t.isEof = false) ∧ eof.isEof = true := by
  intro tokens start
  refine ⟨⟨Cursor.at_iff.mpr rfl, ?_⟩, ?_, ?_, ?_⟩
  · obtain ⟨ss, c, hread, hrest, hend⟩ := Parser.program_stops body eof first
    refine ⟨ss, c, hread, Cursor.at_iff.mpr ?_, ?_, ?_⟩
    · simp [tokens, hrest, hend]
    · simp [Cursor.peek, hrest, hend]
    · have hfind : tokens.find? Token.isEof = some eof := by
        simpa [tokens, Parsed.ofTokens_append hbody] using heof
      simp only [Parsed.ofTokens]
      rw [Parsed.takeWhile_body hbody heof, hfind, Option.getD_some, hread _ (Nat.le_refl _)]
  · intro α rule n c k hat
    exact (rule.leads n c).mono (fun _ d => hat.leads) (fun d => hat.leads) id
  · intro loop hloop n s c k hat
    refine (Loop.advances_of_mem_all hloop n s c).mono ?_ (fun d => hat.leads) ?_
    · rintro next d ⟨ts, ht, hne⟩
      refine ⟨k + ts.length, Nat.le_add_right k _, fun hnext => ?_, hat.took ht⟩
      have := List.length_pos_iff.mpr (hne hnext)
      omega
    · simp only [Parsed.budget]
      omega
  · intro source
    exact ⟨source.body, _, source.tokens_eq, fun _ => Source.isEof_of_mem_body, rfl⟩

/-- `{ print nil }` lacks a semicolon. Recovery skips the brace, and the block is read to the end
token. -/
theorem reading_stays_among_tokens_unclosed :
    let word (kind : Kind) (lexeme : String) : Token := ⟨kind, lexeme, 1⟩
    let rbrace := word .rightBrace "\x7d"
    let eof := word .eof ""
    let body := [word .leftBrace "\x7b", word .kwPrint "print", word .kwNil "nil", rbrace]
    (∀ t ∈ body, t.isEof = false) ∧ eof.isEof = true ∧
    ∃ ss c, (∀ n ≥ 80, Parser.program n [] ⟨body, eof, 0, []⟩ = .ok ss c) ∧ c.peek = eof ∧
      c.errors = [⟨eof, .noBraceAfterBlock⟩, ⟨rbrace, .noSemicolonAfterValue⟩] := by
  intro word rbrace eof body
  have hbody : ∀ t ∈ body, t.isEof = false := by simp [body, rbrace, word, Token.isEof]
  obtain ⟨⟨-, ss, c, hread, -, hpeek, -⟩, -⟩ := reading_stays_among_tokens body eof 0 hbody rfl
  have hrun : Parser.program 80 [] ⟨body, eof, 0, []⟩ = .ok []
      ⟨[], eof, 0, [⟨eof, .noBraceAfterBlock⟩, ⟨rbrace, .noSemicolonAfterValue⟩]⟩ := rfl
  cases (hread 80 (Nat.le_refl 80)).symm.trans hrun
  exact ⟨hbody, rfl, _, _, hread, hpeek, rfl⟩

end ScriptLang
