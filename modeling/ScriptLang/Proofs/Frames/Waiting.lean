import ScriptLang.Proofs.Frames.World

/-! What a machine does, and the work that waits for it, seen from the frame it stands in: each
expression and statement on the stack is a point of an accepted program, and the frame it will
stand in agrees with the scopes around that point. -/

namespace ScriptLang

/-- What waiting work waits for. -/
inductive Expects where
  | value
  | finish

namespace World

/-- `w.Waits expects f scopes sites stack`: the stack waits for a value, or for the end of a
statement, in the frame `f` where the scopes are `scopes`. -/
inductive Waits (w : World) : Expects → FrameId → List Scope → List Site → List Pending → Prop where
  | idle {f} : f = w.globals → Waits w .finish f [] [] []
  | unary {f scopes sites stack} (operator : Token) :
      Waits w .value f scopes sites stack → Waits w .value f scopes sites (.unary operator :: stack)
  | binaryLeft {f scopes sites stack setting right} (operator : Token) :
      w.Visited ⟨.expr right, setting, scopes, sites⟩ → Waits w .value f scopes sites stack →
      Waits w .value f scopes sites (.binaryLeft operator right :: stack)
  | binaryRight {f scopes sites stack} (left : Value) (operator : Token) :
      Waits w .value f scopes sites stack →
      Waits w .value f scopes sites (.binaryRight left operator :: stack)
  | logical {f scopes sites stack setting right} (operator : Token) :
      w.Visited ⟨.expr right, setting, scopes, sites⟩ → Waits w .value f scopes sites stack →
      Waits w .value f scopes sites (.logical operator right :: stack)
  | assign {f scopes sites stack} (id : ExprId) {name : Token} : name.IsPlain →
      Waits w .value f scopes sites stack →
      Waits w .value f scopes sites (.assign id name :: stack)
  | callee {f scopes sites stack setting arguments} (paren : Token) :
      (∀ e ∈ arguments, w.Visited ⟨.expr e, setting, scopes, sites⟩) →
      Waits w .value f scopes sites stack →
      Waits w .value f scopes sites (.callee paren arguments :: stack)
  | argument {f scopes sites stack setting callee front rest} (paren : Token) : w.Sound callee →
      (∀ v ∈ front, w.Sound v) → (∀ e ∈ rest, w.Visited ⟨.expr e, setting, scopes, sites⟩) →
      Waits w .value f scopes sites stack →
      Waits w .value f scopes sites (.argument callee paren front rest :: stack)
  | get {f scopes sites stack} (name : Token) :
      Waits w .value f scopes sites stack → Waits w .value f scopes sites (.get name :: stack)
  | setObject {f scopes sites stack setting value} (name : Token) :
      w.Visited ⟨.expr value, setting, scopes, sites⟩ → Waits w .value f scopes sites stack →
      Waits w .value f scopes sites (.setObject name value :: stack)
  | setValue {f scopes sites stack} (i : InstanceId) (name : Token) :
      Waits w .value f scopes sites stack →
      Waits w .value f scopes sites (.setValue i name :: stack)
  | expression {f scopes sites stack} :
      Waits w .finish f scopes sites stack → Waits w .value f scopes sites (.expression :: stack)
  | print {f scopes sites stack} :
      Waits w .finish f scopes sites stack → Waits w .value f scopes sites (.print :: stack)
  | var {f scopes sites stack} {name : Token} : name.IsPlain →
      Waits w .finish f (completeIn name.lexeme scopes) sites stack →
      Waits w .value f scopes sites (.var name :: stack)
  | branch {f scopes sites stack setting thenBranch elseBranch} :
      (∀ s ∈ thenBranch :: elseBranch.toList,
        w.Visited ⟨.stmt s, setting, scopes, sites⟩ ∧ s.declares = none) →
      Waits w .finish f scopes sites stack →
      Waits w .value f scopes sites (.branch thenBranch elseBranch :: stack)
  | loopTest {f scopes sites stack setting condition body} :
      w.Visited ⟨.stmt (.loop condition body), setting, scopes, sites⟩ →
      Waits w .finish f scopes sites stack →
      Waits w .value f scopes sites (.loopTest condition body :: stack)
  | loopBody {f scopes sites stack setting condition body} :
      w.Visited ⟨.stmt (.loop condition body), setting, scopes, sites⟩ →
      Waits w .finish f scopes sites stack →
      Waits w .finish f scopes sites (.loopBody condition body :: stack)
  | ret {f scopes sites stack} :
      Waits w .finish f scopes sites stack → Waits w .value f scopes sites (.ret :: stack)
  | superclass {f scopes sites stack setting name superclass methods} :
      w.Visited ⟨.stmt (.classDecl name (some superclass) methods), setting, scopes, sites⟩ →
      Waits w .finish f (completeIn name.lexeme scopes) sites stack →
      Waits w .value f scopes sites (.superclass name superclass methods :: stack)
  | initializer {f scopes sites stack} (i : InstanceId) :
      Waits w .value f scopes sites stack →
      Waits w .value f scopes sites (.initializer i :: stack)
  | block {f scopes sites stack setting rest outer outerScopes outerSites} :
      w.Visited ⟨.stmts rest, setting, scopes, sites⟩ → w.Agrees outer outerScopes outerSites →
      Waits w .finish outer outerScopes outerSites stack →
      Waits w .finish f scopes sites (.block rest outer :: stack)
  | body {f scopes sites stack} {callee : Function} : w.Callable callee →
      Waits w .value f scopes sites stack →
      Waits w .finish f scopes sites (.body callee :: stack)
  | program {f setting rest} : f = w.globals → w.Visited ⟨.stmts rest, setting, [], []⟩ →
      Waits w .finish f [] [] [.program rest]

theorem Waits.mono {w w' : World} (hle : w.Grows w') {expects : Expects} {f : FrameId}
    {scopes : List Scope} {sites : List Site} {stack : List Pending}
    (h : w.Waits expects f scopes sites stack) : w'.Waits expects f scopes sites stack := by
  induction h with
  | idle hglobals => exact .idle (hglobals.trans hle.globals.symm)
  | unary operator _ ih => exact .unary operator ih
  | binaryLeft operator hright _ ih => exact .binaryLeft operator (hright.mono hle) ih
  | binaryRight left operator _ ih => exact .binaryRight left operator ih
  | logical operator hright _ ih => exact .logical operator (hright.mono hle) ih
  | assign id hname _ ih => exact .assign id hname ih
  | callee paren hargs _ ih => exact .callee paren (fun e he => (hargs e he).mono hle) ih
  | argument paren hcallee hfront hrest _ ih =>
      exact .argument paren (hcallee.mono hle) (fun v hv => (hfront v hv).mono hle)
        (fun e he => (hrest e he).mono hle) ih
  | get name _ ih => exact .get name ih
  | setObject name hvalue _ ih => exact .setObject name (hvalue.mono hle) ih
  | setValue i name _ ih => exact .setValue i name ih
  | expression _ ih => exact .expression ih
  | print _ ih => exact .print ih
  | var hname _ ih => exact .var hname ih
  | branch hbranches _ ih =>
      exact .branch (fun s hs => ⟨(hbranches s hs).1.mono hle, (hbranches s hs).2⟩) ih
  | loopTest hloop _ ih => exact .loopTest (hloop.mono hle) ih
  | loopBody hloop _ ih => exact .loopBody (hloop.mono hle) ih
  | ret _ ih => exact .ret ih
  | superclass hclass _ ih => exact .superclass (hclass.mono hle) ih
  | initializer i _ ih => exact .initializer i ih
  | block hrest hagrees _ ih => exact .block (hrest.mono hle) (hagrees.mono hle) ih
  | body hcallable _ ih => exact .body (hcallable.mono hle) ih
  | program hglobals hrest =>
      exact .program (hglobals.trans hle.globals.symm) (hrest.mono hle)

/-- What an expression reads is found the same way in `outer` as in `scopes`: a superclass stands
in a scope that has the name of its class, which the frame does not bind yet. -/
def ReadsAlike (e : Expr) (outer scopes : List Scope) : Prop :=
  scopes = outer ∨ ∃ id parent name, e = .variable id parent ∧ parent.lexeme ≠ name ∧
    scopes = completeIn name outer

theorem ReadsAlike.eq {e e' : Expr} {outer scopes : List Scope} (h : ReadsAlike e outer scopes)
    (he : e' ∈ e.parts) : scopes = outer := by
  rcases h with h | ⟨id, parent, name, rfl, -⟩
  · exact h
  · simp [Expr.parts] at he

/-- What a machine that stands in the frame `f` does, and what waits for it. -/
def Works (w : World) (f : FrameId) : Task → List Pending → Prop
  | .eval e, stack => ∃ setting scopes outer sites,
      w.Visited ⟨.expr e, setting, scopes, sites⟩ ∧ ReadsAlike e outer scopes ∧
      w.Agrees f outer sites ∧ w.Waits .value f outer sites stack
  | .exec s, stack => ∃ setting scopes sites,
      w.Visited ⟨.stmt s, setting, scopes, sites⟩ ∧ w.Agrees f scopes sites ∧
      w.Waits .finish f (s.after scopes) sites stack
  | .call callee arguments _, stack => w.Sound callee ∧ (∀ v ∈ arguments, w.Sound v) ∧
      ∃ scopes sites, w.Agrees f scopes sites ∧ w.Waits .value f scopes sites stack
  | .value v, stack => w.Sound v ∧
      ∃ scopes sites, w.Agrees f scopes sites ∧ w.Waits .value f scopes sites stack
  | .done, stack => ∃ scopes sites, w.Agrees f scopes sites ∧ w.Waits .finish f scopes sites stack
  | .returning v, stack => w.Sound v ∧
      ∃ scopes sites, w.Agrees f scopes sites ∧ w.Waits .finish f scopes sites stack
  | .failing _, stack => ∃ expects scopes sites, w.Waits expects f scopes sites stack

end World

end ScriptLang
