import ScriptLang.Proofs.Reading.PlainStatements

/-! Recovery from a missing semicolon. The error is noted once, at the token that stands where the
semicolon should. Reading then goes on at the next statement boundary, in the block or program that
the statement stands in, as if the statement and the tokens up to there were an empty block. So
further errors are reported exactly if that is no program, for example because the brace that ends
the block was skipped. -/

namespace ScriptLang

/-- The tokens at which reading goes on after an error at the first of some tokens. -/
def Cursor.resumed : List Token → List Token
  | [] => []
  | t :: rest => boundary t rest

theorem Cursor.resumed_suffix (ts : List Token) : resumed ts <:+ ts := by
  cases ts with
  | nil => exact List.suffix_rfl
  | cons t rest => exact (boundary_suffix t rest).trans (List.suffix_cons t rest)

theorem Cursor.synchronize_eq (ts : List Token) (eof : Token) (i : ExprId)
    (errors : List SyntaxError) :
    (⟨ts, eof, i, errors⟩ : Cursor).synchronize = ⟨resumed ts, eof, i, errors⟩ := by
  cases ts <;> rfl

/-! ### Reading on -/

/-- From declarations at `ts` on, with the next id `i`, reading comes to `us`, with the next id `j`
and the errors `es`. -/
structure ReadsOn (eof : Token) (ts : List Token) (i : ExprId) (us : List Token) (j : ExprId)
    (es : List SyntaxError) : Prop where
  le : i ≤ j
  read : ∀ (listing : Listing) (n : Nat) (front : List Stmt), 16 * ts.length + 13 ≤ n →
    ∃ m before, 16 * us.length + 13 ≤ m ∧
      listing.read n front ⟨ts, eof, i, []⟩ = listing.read m before ⟨us, eof, j, es⟩

namespace ReadsOn

variable {eof : Token} {ts us vs : List Token} {i j k : ExprId} {es : List SyntaxError}

theorem trans (h : ReadsOn eof ts i us j []) (h' : ReadsOn eof us j vs k es) :
    ReadsOn eof ts i vs k es where
  le := Nat.le_trans h.le h'.le
  read listing n front hn := by
    obtain ⟨m, before, hm, hread⟩ := h.read listing n front hn
    obtain ⟨m', before', hm', hread'⟩ := h'.read listing m before hm
    exact ⟨m', before', hm', hread.trans hread'⟩

/-- One declaration is read, or fails and is skipped. -/
theorem of_recover (hopens : Symbol.declaration.Opens ts) (hlength : us.length < ts.length)
    (h : ∀ n, 16 * ts.length + 12 ≤ n → ∃ s,
      Parser.recover (Parser.declaration n) ⟨ts, eof, i, []⟩ = .ok s ⟨us, eof, j, es⟩) :
    ReadsOn eof ts i us j es where
  le := by
    obtain ⟨s, hs⟩ := h _ (Nat.le_refl _)
    have hreply := (Parser.declaration_alike (16 * ts.length + 12)).recover
      (.exact (.onward ⟨ts, eof, i, []⟩)) _ _ ⟨rfl, .refl _⟩
    rw [hs] at hreply
    obtain ⟨-, -, vs, htook⟩ := hreply
    exact htook.ids
  read listing n front hn := by
    obtain ⟨n, rfl⟩ : ∃ n', n = n' + 1 := ⟨n - 1, by omega⟩
    obtain ⟨s, hs⟩ := h n (by omega)
    cases ts with
    | nil => exact absurd rfl (hopens.2 rfl)
    | cons t ts =>
        refine ⟨n, s.toList ++ front, by omega, ?_⟩
        rw [listing.read_eq_recover rfl hopens.ne_rightBrace]
        exact Parser.bind_of_ok hs

end ReadsOn

/-! ### Errors of a program -/

/-- The errors that are reported. -/
def Parsed.errors (parsed : Parsed) : List SyntaxError :=
  match parsed.program with
  | .ok _ => []
  | .error es => es

/-- They are those that were noted, in order. -/
theorem Parsed.errors_ofTokens {body : List Token} {eof : Token}
    (hbody : ∀ t ∈ body, t.isEof = false) (heof : eof.isEof = true) (first : ExprId) :
    ∃ ss c, (∀ n ≥ budget body.length, Parser.program n [] ⟨body, eof, first, []⟩ = .ok ss c) ∧
      (ofTokens (body ++ [eof]) first).errors = c.errors.reverse := by
  obtain ⟨ss, c, hread, -⟩ := Parser.program_stops body eof first
  have hfind : (body ++ [eof]).find? Token.isEof = some eof := by
    simpa [ofTokens_append hbody] using heof
  refine ⟨ss, c, hread, ?_⟩
  simp only [ofTokens]
  rw [takeWhile_body hbody heof, hfind, Option.getD_some, hread _ (Nat.le_refl _)]
  by_cases herrors : c.errors = [] <;> simp [errors, herrors]

namespace Opened

variable {first i j k : ExprId} {ts us vs ws : List Token} {eof : Token}

/-- Two ways on from a place to the same tokens. The first notes its errors, and makes no other
difference to the errors of the program. -/
theorem errors_eq {es : List SyntaxError} (h : Opened first ts i) (heof : eof.isEof = true)
    (hus : ∀ t ∈ ts ++ us, t.isEof = false) (hvs : ∀ t ∈ ts ++ vs, t.isEof = false)
    (hopens : Symbol.declaration.Opens us) (hopens' : Symbol.declaration.Opens vs)
    (hread : ReadsOn eof us i ws k es) (hread' : ReadsOn eof vs i ws j []) (hle : j ≤ k) :
    (Parsed.ofTokens (ts ++ us ++ [eof]) first).errors =
      es.reverse ++ (Parsed.ofTokens (ts ++ vs ++ [eof]) first).errors := by
  obtain ⟨ss, c, hprogram, herrors⟩ := Parsed.errors_ofTokens hus heof first
  obtain ⟨ss', c', hprogram', herrors'⟩ := Parsed.errors_ofTokens hvs heof first
  simp only [Parsed.budget, List.length_append] at hprogram hprogram'
  -- One budget for both programs, so that the same is open around the place.
  obtain ⟨inner, m, before, F, hm, hF, hreach⟩ := h.reaches .program
    (n := 16 * (ts.length + us.length + vs.length + 1)) (by omega) []
  have hinner := (hreach us eof [] hopens).symm.trans (hprogram _ (by omega))
  have hinner' := (hreach vs eof [] hopens').symm.trans (hprogram' _ (by omega))
  obtain ⟨n, front, hn, heq⟩ := hread.read inner m before (by omega)
  obtain ⟨n', front', hn', heq'⟩ := hread'.read inner m before (by omega)
  rw [heq, ← inner.read_eq_of_le (Nat.le_add_right n n')
    (inner.read_ne_exhausted hn front)] at hinner
  rw [heq', ← inner.read_eq_of_le (Nat.le_add_left n' n)
    (inner.read_ne_exhausted hn' front')] at hinner'
  obtain ⟨d, rfl⟩ := Nat.exists_eq_add_of_le hle
  have halike := hF.alike (.later d es) _ _ (inner.read_alike (n + n') front' front (.later d es)
    ⟨ws, eof, j, []⟩ ⟨ws, eof, j + d, es⟩ rfl)
  rw [hinner, hinner'] at halike
  obtain ⟨-, rfl⟩ := halike
  rw [herrors, herrors']
  exact List.reverse_append

/-- If no error is reported, all that follows a place in its program or block are declarations. -/
theorem declarations_of_errors_nil (h : Opened first ts i) (heof : eof.isEof = true)
    (hus : ∀ t ∈ ts ++ us, t.isEof = false) (hopens : Symbol.declaration.Opens us)
    (hread : ReadsOn eof us i vs j [])
    (hnone : (Parsed.ofTokens (ts ++ us ++ [eof]) first).errors = []) :
    ∃ ws ss k rest, vs = ws ++ rest ∧ Derives .declarations j ws ss k ∧
      ∀ t ∈ rest.head?, t.kind = .rightBrace := by
  obtain ⟨ss, c, hprogram, herrors⟩ := Parsed.errors_ofTokens hus heof first
  have hclean : c.errors = [] := List.reverse_eq_nil_iff.mp (herrors.symm.trans hnone)
  simp only [Parsed.budget, List.length_append] at hprogram
  obtain ⟨inner, m, before, F, hm, hF, hreach⟩ := h.reaches .program
    (n := 16 * (ts.length + us.length + 1)) (by omega) []
  have hinner := (hreach us eof [] hopens).symm.trans (hprogram _ (by omega))
  obtain ⟨n, front, hn, heq⟩ := hread.read inner m before (by omega)
  rw [heq] at hinner
  cases hreply : inner.read n front ⟨vs, eof, j, []⟩ with
  | exhausted => exact absurd hreply (inner.read_ne_exhausted hn front)
  | fail e d =>
      rw [hreply] at hinner
      exact absurd hclean (hF.heeds e d ss c hinner)
  | ok ss' d =>
      rw [hreply] at hinner
      have hd : d.errors = [] := hF.errors_nil hinner hclean
      cases inner with
      | program =>
          have hreads := Parser.program_reads n front ⟨vs, eof, j, []⟩
          rw [show Parser.program n front ⟨vs, eof, j, []⟩ = .ok ss' d from hreply] at hreads
          obtain ⟨ss'', -, ⟨ws, htook, -, hderives⟩, hend⟩ := hreads
          refine ⟨ws, ss'', d.nextId, [], ?_, hderives hd, by simp⟩
          simpa [hend] using htook.rest
      | block =>
          have hreads := (Parser.readsStatements n).block front ⟨vs, eof, j, []⟩
          rw [show Parser.block n front ⟨vs, eof, j, []⟩ = .ok ss' d from hreply] at hreads
          obtain ⟨ss'', ws, rbrace, -, htook, hrbrace, hderives⟩ := hreads
          refine ⟨ws, ss'', d.nextId, rbrace :: d.rest, ?_, hderives hd, by simpa using hrbrace⟩
          simpa using htook.rest

end Opened

/-! ### Unfinished statements -/

/-- A plain statement is read with its semicolon as a declaration on its own. -/
theorem Plain.readsOn {declares : Bool} {i j : ExprId} {ts : List Token} {cause : SyntaxCause}
    {goes : Kind → Bool} (h : Plain declares i ts j cause goes) {semicolon : Token}
    (hsemicolon : semicolon.kind = .semicolon) (rest : List Token) (eof : Token) :
    ReadsOn eof (ts ++ semicolon :: rest) i rest j [] := by
  have hopens : Symbol.declaration.Opens (ts ++ semicolon :: rest) :=
    h.opens.append rfl (fun _ => id) _
  obtain ⟨s, hs⟩ := h.reads
  refine .of_recover hopens (by simp only [List.length_append, List.length_cons]; omega)
    fun n hn => ⟨some s, Parser.recover_of_ok ?_⟩
  obtain ⟨n, rfl⟩ : ∃ n', n = n' + 1 := ⟨n - 1, by omega⟩
  simp only [List.length_append, List.length_cons] at hn
  cases declares with
  | true => exact hs (n + 1) semicolon rest eof [] hsemicolon (by omega)
  | false =>
      rw [Parser.declaration_eq_statement (h.opens_statement.append rfl (fun _ => id) _)]
      exact hs n semicolon rest eof [] hsemicolon (by omega)

namespace Unfinished

variable {i j k : ExprId} {ts us : List Token} {cause : SyntaxCause} {goes : Kind → Bool}

theorem opens (h : Unfinished i ts j cause goes) (rest : List Token) :
    Symbol.declaration.Opens (ts ++ rest) := by
  cases h with
  | mk hahead hplain =>
      cases hahead with
      | declaration => exact hplain.opens.append rfl (fun _ => id) rest
      | statement hleading =>
          rw [List.append_assoc]
          exact (hleading.opens (hplain.opens_statement.append rfl (fun _ => id) rest)).declaration

theorem ne_nil (h : Unfinished i ts j cause goes) : ts ≠ [] := by
  have hopens := h.opens []
  rw [List.append_nil] at hopens
  exact hopens.2 rfl

/-- The statement fails, is noted as an error and skipped. -/
theorem readsOn_of_stops (h : Unfinished i ts j cause goes) {rest : List Token}
    (hstop : Stops goes rest) (hsemicolon : Stops (· = .semicolon) rest) (eof : Token) :
    ReadsOn eof (ts ++ rest) i (Cursor.resumed rest) j [⟨rest.headD eof, cause⟩] := by
  have hpos := List.length_pos_iff.mpr h.ne_nil
  have hskipped := (Cursor.resumed_suffix rest).length_le
  refine .of_recover (h.opens rest) (by simp only [List.length_append]; omega) fun n hn => ?_
  cases h with
  | mk hahead hplain =>
      simp only [List.length_append] at hn hpos
      obtain ⟨m, g, hm, -, heq⟩ := hahead.declaration_eq (n := n) (by omega)
      refine ⟨none, ?_⟩
      rw [Parser.recover_eq_recovered, heq hplain, hplain.fails hstop hsemicolon (by omega)]
      exact congrArg (Reply.ok none) (Cursor.synchronize_eq rest eof j _)

/-- With more tokens and a semicolon the plain statement at the end is read, and so is the
declaration. -/
theorem readsOn_of_plainReads {declares : Bool} {xs : List Token} {es : List SyntaxError}
    (hahead : Ahead declares i ts j) (hplain : Plain declares j us k cause goes) {l : ExprId}
    (hread : Parser.PlainReads declares j (us ++ xs) l es) {semicolon : Token}
    (hsemicolon : semicolon.kind = .semicolon) {rest : List Token}
    (helse : Stops (· = .kwElse) rest) (eof : Token) :
    ReadsOn eof (ts ++ us ++ (xs ++ semicolon :: rest)) i rest l es := by
  obtain ⟨s, hs⟩ := hread
  refine .of_recover ((Unfinished.mk hahead hplain).opens _)
    (by simp only [List.length_append, List.length_cons]; omega) fun n hn => ?_
  simp only [List.length_append, List.length_cons] at hn hs
  obtain ⟨m, g, hm, hg, heq⟩ := hahead.declaration_eq (n := n) (by omega)
  obtain ⟨s', hs'⟩ := hg.ends s ⟨rest, eof, l, es⟩ helse
  have hplain' := hs m semicolon rest eof [] hsemicolon (by omega)
  refine ⟨some s', Parser.recover_of_ok ?_⟩
  rw [heq hplain, ← List.append_assoc, hplain', List.append_nil]
  exact hs'

theorem readsOn (h : Unfinished i ts j cause goes) {semicolon : Token}
    (hsemicolon : semicolon.kind = .semicolon) {rest : List Token}
    (helse : Stops (· = .kwElse) rest) (eof : Token) :
    ReadsOn eof (ts ++ semicolon :: rest) i rest j [] := by
  cases h with
  | @mk _ _ _ _ us _ _ _ hahead hplain =>
      have hread := hplain.reads
      rw [← List.append_nil us] at hread
      exact readsOn_of_plainReads hahead hplain hread hsemicolon helse eof

theorem readsOn_append (h : Unfinished i ts j cause goes) {e : Expr}
    (hlast : Derives .expression j us e k) (hgoes : ∀ t ∈ us.head?, goes t.kind = true)
    {semicolon : Token} (hsemicolon : semicolon.kind = .semicolon) {rest : List Token}
    (helse : Stops (· = .kwElse) rest) (eof : Token) :
    ∃ es, es.length ≤ 1 ∧ ReadsOn eof (ts ++ (us ++ semicolon :: rest)) i rest k es := by
  cases h with
  | mk hahead hplain =>
      obtain ⟨es, hlength, hread⟩ := hplain.reads_append hlast hgoes
      exact ⟨es, hlength, readsOn_of_plainReads hahead hplain hread hsemicolon helse eof⟩

end Unfinished

/-! ### What follows -/

/-- Recovery passes over tokens that are no boundary, up to a semicolon and past it. -/
theorem Cursor.boundary_of_plain {previous semicolon : Token} {ts : List Token}
    (hprevious : previous.kind ≠ .semicolon) (hts : ∀ t ∈ ts, t.kind.isBoundary = false)
    (hsemicolon : semicolon.kind = .semicolon) (rest : List Token) :
    boundary previous (ts ++ semicolon :: rest) = rest := by
  induction ts generalizing previous with
  | nil => cases rest <;> simp [boundary, hprevious, hsemicolon]
  | cons t ts ih =>
      obtain ⟨ht, hts⟩ := List.forall_mem_cons.mp hts
      have hne : t.kind ≠ .semicolon := by
        intro hkind
        rw [hkind] at ht
        cases ht
      have hskip : boundary previous (t :: (ts ++ semicolon :: rest)) =
          boundary t (ts ++ semicolon :: rest) := by
        rw [boundary, if_neg hprevious]
        split <;> simp_all [Kind.isBoundary]
      exact hskip.trans (ih hne hts)

theorem Plain.resumed_eq {declares : Bool} {i j : ExprId} {ts : List Token} {cause : SyntaxCause}
    {goes : Kind → Bool} (h : Plain declares i ts j cause goes) {semicolon : Token}
    (hsemicolon : semicolon.kind = .semicolon) (rest : List Token) :
    Cursor.resumed (ts ++ semicolon :: rest) = rest := by
  obtain ⟨t, us, rfl, ht, hus⟩ := h.exists_cons
  exact Cursor.boundary_of_plain ht hus hsemicolon rest

/-- An empty block takes no id and leaves nothing open. -/
theorem ReadsOn.block {lbrace rbrace : Token} (hlbrace : lbrace.kind = .leftBrace)
    (hrbrace : rbrace.kind = .rightBrace) (rest : List Token) (eof : Token) (i : ExprId) :
    ReadsOn eof (lbrace :: rbrace :: rest) i rest i [] := by
  have hblock : Derives (.statement false) i (lbrace :: [] ++ [rbrace]) (.block []) i :=
    .block hlbrace .noDeclarations hrbrace
  have hopens : (Symbol.statement false).Opens (lbrace :: rbrace :: rest) :=
    .of_begins (by simp [Symbol.begins, Kind.beginsStatement, hlbrace]) _
  refine .of_recover hopens.declaration (by simp only [List.length_cons]; omega) fun n hn => ?_
  obtain ⟨n, rfl⟩ : ∃ n', n = n' + 1 := ⟨n - 1, by omega⟩
  simp only [List.length_cons] at hn
  refine ⟨some (.block []), Parser.recover_of_ok ?_⟩
  rw [Parser.declaration_eq_statement hopens]
  exact Parser.completes hblock n rest eof []
    (by simp only [List.length_append, List.length_cons, List.length_nil]; omega)
    fun hdangling => absurd hdangling Bool.false_ne_true

/-- A declaration that begins as an expression does is an expression statement. -/
theorem Derives.expression_of_begins {i j : ExprId} {ts : List Token} {s : Stmt}
    (h : Derives .declaration i ts s j)
    (hbegins : ∀ t ∈ ts.head?, t.kind.beginsExpression = true) :
    ∃ us e semicolon, ts = us ++ [semicolon] ∧ Derives .expression i us e j ∧
      semicolon.kind = .semicolon := by
  have hno {t : Token} {us : List Token} {kind : Kind} (hts : ts = t :: us)
      (hkind : t.kind = kind) : kind.beginsExpression = true := by
    rw [← hkind]
    exact hbegins t (by rw [hts]; rfl)
  cases h with
  | baseClass hkeyword | derivedClass hkeyword | funDecl hkeyword =>
      exact nomatch hno rfl hkeyword
  | varDecl h =>
      cases h with
      | varBare hkeyword | varInit hkeyword => exact nomatch hno rfl hkeyword
  | statement dangling h =>
      cases h with
      | exprStatement h =>
          cases h with
          | exprStmt hexpression hsemicolon => exact ⟨_, _, _, rfl, hexpression, hsemicolon⟩
      | forStatement hkeyword | ifElse hkeyword | print hkeyword | ret hkeyword
      | whileStatement hkeyword | block hkeyword => exact nomatch hno rfl hkeyword
      | ifThen _ hkeyword => exact nomatch hno rfl hkeyword

theorem Symbol.beginsExpression_of_extends {kind : Kind}
    (hbegins : Symbol.declaration.begins kind = true) (hextends : kind.extendsExpression = true) :
    kind.beginsExpression = true := by
  cases kind <;> first
    | rfl
    | exact absurd hbegins Bool.false_ne_true
    | exact absurd hextends Bool.false_ne_true

/-- What goes on with a statement is a token of an expression. -/
theorem Unfinished.goes_cases {i j : ExprId} {ts : List Token} {cause : SyntaxCause}
    {goes : Kind → Bool} (h : Unfinished i ts j cause goes) {kind : Kind}
    (hgoes : goes kind = true) :
    kind.beginsExpression = true ∨ kind.extendsExpression = true := by
  cases h with
  | mk _ hplain =>
      cases hplain with
      | bareVar =>
          obtain rfl : kind = .equal := by simpa using hgoes
          exact .inr rfl
      | bareReturn => exact .inl hgoes
      | value => exact .inr hgoes

/-! ### A semicolon less -/

/-- The tokens `ts`, `us`, a semicolon and `rest` are a program, in which the semicolon ends the
statement `us`. -/
structure EndsStatement (first : ExprId) (ts : List Token) (i : ExprId) (us : List Token)
    (j : ExprId) (cause : SyntaxCause) (goes : Kind → Bool) (semicolon : Token)
    (rest : List Token) (eof : Token) : Prop where
  opened : Opened first ts i
  unfinished : Unfinished i us j cause goes
  isSemicolon : semicolon.kind = .semicolon
  body : ∀ t ∈ ts ++ (us ++ semicolon :: rest), t.isEof = false
  isEof : eof.isEof = true
  accepted : (Parsed.ofTokens (ts ++ (us ++ semicolon :: rest) ++ [eof]) first).errors = []

namespace EndsStatement

variable {first i j k : ExprId} {ts us rest zs : List Token} {cause : SyntaxCause}
  {goes : Kind → Bool} {semicolon eof : Token}

/-- Unless it is an `else`, what follows are declarations up to the end of the block. -/
theorem declarations (h : EndsStatement first ts i us j cause goes semicolon rest eof)
    (helse : Stops (· = .kwElse) rest) :
    ∃ ws ss k zs, rest = ws ++ zs ∧ Derives .declarations j ws ss k ∧
      ∀ t ∈ zs.head?, t.kind = .rightBrace :=
  h.opened.declarations_of_errors_nil h.isEof h.body (h.unfinished.opens _)
    (h.unfinished.readsOn h.isSemicolon helse eof) h.accepted

theorem stops_semicolon (h : EndsStatement first ts i us j cause goes semicolon rest eof) :
    Stops (· = .semicolon) rest := by
  intro t ht
  refine decide_eq_false fun hkind => ?_
  have helse : Stops (· = .kwElse) rest := by
    intro t' ht'
    obtain rfl := Option.mem_unique ht ht'
    simp [hkind]
  obtain ⟨ws, ss, k, zs, rfl, hws, hzs⟩ := h.declarations helse
  cases ws with
  | nil =>
      have hbrace := hzs t ht
      rw [hkind] at hbrace
      cases hbrace
  | cons w ws =>
      obtain rfl : w = t := by simpa using ht
      have hbegins := hws.opens.1 w rfl
      rw [hkind] at hbegins
      cases hbegins

theorem body_of_suffix (h : EndsStatement first ts i us j cause goes semicolon rest eof)
    {vs : List Token} (hvs : ∀ t ∈ vs, t ∈ us ∨ t.isEof = false) (hzs : zs <:+ semicolon :: rest) :
    ∀ t ∈ ts ++ (vs ++ zs), t.isEof = false := by
  have hbody := h.body
  simp only [List.mem_append] at hbody ⊢
  rintro t (ht | ht | ht)
  · exact hbody t (.inl ht)
  · rcases hvs t ht with ht | ht
    · exact hbody t (.inr (.inl ht))
    · exact ht
  · exact hbody t (.inr (.inr (hzs.mem ht)))

/-- What was read from the statement on may be cut out. An empty block in its place keeps an `else`
after it from a conditional before it. -/
theorem errors_cut (h : EndsStatement first ts i us j cause goes semicolon rest eof)
    {xs : List Token} {es : List SyntaxError} (hread : ReadsOn eof (us ++ xs) i zs k es)
    (hxs : xs <:+ semicolon :: rest) (hzs : zs <:+ xs) {lbrace rbrace : Token}
    (hlbrace : lbrace.kind = .leftBrace) (hrbrace : rbrace.kind = .rightBrace) :
    (Parsed.ofTokens (ts ++ (us ++ xs) ++ [eof]) first).errors = es.reverse ++
      (Parsed.ofTokens (ts ++ ([lbrace, rbrace] ++ zs) ++ [eof]) first).errors := by
  have hbraces : ∀ t ∈ [lbrace, rbrace], t ∈ us ∨ t.isEof = false := by
    simp [Token.isEof, hlbrace, hrbrace]
  have hblock : Symbol.declaration.Opens ([lbrace, rbrace] ++ zs) :=
    .of_begins (by simp [Symbol.begins, Kind.beginsStatement, hlbrace]) _
  exact h.opened.errors_eq h.isEof (h.body_of_suffix (fun t ht => .inl ht) hxs)
    (h.body_of_suffix hbraces (hzs.trans hxs)) (h.unfinished.opens xs) hblock hread
    (.block hlbrace hrbrace zs eof i) hread.le

/-- Where the next token goes on with the statement, the next statement becomes part of it. -/
theorem length_errors_le (h : EndsStatement first ts i us j cause goes semicolon rest eof)
    (hmore : ¬ Stops goes rest) :
    (Parsed.ofTokens (ts ++ (us ++ rest) ++ [eof]) first).errors.length ≤ 1 := by
  obtain ⟨t, ht, hgoes⟩ : ∃ t, t ∈ rest.head? ∧ goes t.kind = true := by
    simpa [Stops] using hmore
  have hcases := h.unfinished.goes_cases hgoes
  have helse : Stops (· = .kwElse) rest := by
    intro t' ht'
    obtain rfl := Option.mem_unique ht ht'
    refine decide_eq_false fun hkind => ?_
    rw [hkind] at hcases
    rcases hcases with hcases | hcases <;> cases hcases
  obtain ⟨ws, ss, k, zs, rfl, hws, hzs⟩ := h.declarations helse
  cases hws with
  | noDeclarations =>
      have hbrace := hzs t ht
      rw [hbrace] at hcases
      rcases hcases with hcases | hcases <;> cases hcases
  | @declarations _ xs s l ys _ _ hfirst hothers =>
      have hrest : Stops (· = .kwElse) (ys ++ zs) := by
        refine hothers.opens.stops_else fun t ht => ?_
        simp [hzs t ht]
      rw [List.append_assoc xs] at h ht helse ⊢
      rw [List.head?_append_of_ne_nil xs (hfirst.opens.2 rfl)] at ht
      obtain ⟨vs, e, last, rfl, hvs, hlast⟩ := hfirst.expression_of_begins <| by
        intro t' ht'
        obtain rfl := Option.mem_unique ht ht'
        rcases hcases with hbegins | hextends
        · exact hbegins
        · exact Symbol.beginsExpression_of_extends (hfirst.opens.1 t ht) hextends
      rw [List.append_assoc vs, List.singleton_append] at h helse ⊢
      rw [List.head?_append_of_ne_nil vs (hvs.opens.2 rfl)] at ht
      obtain ⟨es, hlength, hread⟩ := h.unfinished.readsOn_append hvs (by
        intro t' ht'
        obtain rfl := Option.mem_unique ht ht'
        exact hgoes) hlast hrest eof
      have hread' := (h.unfinished.readsOn h.isSemicolon helse eof).trans
        ((Plain.value .expression hvs).readsOn hlast (ys ++ zs) eof)
      have herrors := h.opened.errors_eq h.isEof
        (h.body_of_suffix (fun t ht => .inl ht) (List.suffix_cons _ _)) h.body
        (h.unfinished.opens _) (h.unfinished.opens _) hread hread' (Nat.le_refl l)
      rw [herrors, h.accepted]
      simpa using hlength

/-- The error of the statement comes first. -/
theorem errors_of_stops (h : EndsStatement first ts i us j cause goes semicolon rest eof)
    (hstop : Stops goes rest) {lbrace rbrace : Token} (hlbrace : lbrace.kind = .leftBrace)
    (hrbrace : rbrace.kind = .rightBrace) :
    (Parsed.ofTokens (ts ++ (us ++ rest) ++ [eof]) first).errors = ⟨rest.headD eof, cause⟩ ::
      (Parsed.ofTokens (ts ++ ([lbrace, rbrace] ++ Cursor.resumed rest) ++ [eof]) first).errors :=
  h.errors_cut (h.unfinished.readsOn_of_stops hstop h.stops_semicolon eof) (List.suffix_cons _ _)
    (Cursor.resumed_suffix rest) hlbrace hrbrace

/-- If recovery stops where reading would have come to, the statement's is the only error. -/
theorem length_errors_le_of_readsOn
    (h : EndsStatement first ts i us j cause goes semicolon rest eof)
    (hread : ReadsOn eof (us ++ semicolon :: rest) i (Cursor.resumed rest) k []) :
    (Parsed.ofTokens (ts ++ (us ++ rest) ++ [eof]) first).errors.length ≤ 1 := by
  by_cases hstop : Stops goes rest
  · have hlbrace : (⟨.leftBrace, "\x7b", 1⟩ : Token).kind = .leftBrace := rfl
    have hrbrace : (⟨.rightBrace, "\x7d", 1⟩ : Token).kind = .rightBrace := rfl
    have hcut := h.errors_cut hread List.suffix_rfl
      ((Cursor.resumed_suffix rest).trans (List.suffix_cons semicolon rest)) hlbrace hrbrace
    rw [h.accepted, List.reverse_nil, List.nil_append] at hcut
    rw [h.errors_of_stops hstop hlbrace hrbrace, ← hcut]
    exact Nat.le_refl 1
  · exact h.length_errors_le hstop

/-- It does if a plain statement follows, or nothing. -/
theorem readsOn_of_plain (h : EndsStatement first ts i us j cause goes semicolon rest eof)
    (hplain : rest = [] ∨ ∃ declares vs k cause' goes' last others,
      Plain declares j vs k cause' goes' ∧ last.kind = .semicolon ∧ rest = vs ++ last :: others) :
    ∃ k, ReadsOn eof (us ++ semicolon :: rest) i (Cursor.resumed rest) k [] := by
  rcases hplain with rfl | ⟨declares, vs, k, cause', goes', last, others, hvs, hlast, rfl⟩
  · exact ⟨j, h.unfinished.readsOn h.isSemicolon .nil eof⟩
  · have helse : Stops (· = .kwElse) (vs ++ last :: others) :=
      (hvs.opens.imp rfl fun _ => id : Symbol.declarations.Opens vs).stops_else
        (.cons (by simp [hlast]) others)
    rw [hvs.resumed_eq hlast]
    exact ⟨k, (h.unfinished.readsOn h.isSemicolon helse eof).trans (hvs.readsOn hlast others eof)⟩

end EndsStatement

/-- Take away one semicolon of a program. It stood in the header of a loop or ended a plain
statement. In the second case, unless the next token goes on with the statement, the errors are
one for the statement, at that token, and those of the program with an empty block in place of the
statement and of the tokens that recovery skips. So there is no other exactly if that is a
program. This is so if nothing follows the semicolon or a plain statement does. Where the next token
goes on with the statement, there is at most one error. -/
theorem missing_semicolons_are_reported_once (front rest : List Token) (semicolon eof : Token)
    (first next : ExprId) (ss : Program)
    (hbody : ∀ t ∈ front ++ semicolon :: rest, t.isEof = false) (heof : eof.isEof = true)
    (hsemicolon : semicolon.kind = .semicolon)
    (hread : Parsed.ofTokens (front ++ semicolon :: rest ++ [eof]) first = ⟨.ok ss, next⟩) :
    let reported := (Parsed.ofTokens (front ++ rest ++ [eof]) first).errors
    Located first front semicolon ∧
    ∀ ts i us j cause goes, front = ts ++ us → Opened first ts i → Unfinished i us j cause goes →
      (Stops goes rest → ∀ lbrace rbrace : Token, lbrace.kind = .leftBrace →
        rbrace.kind = .rightBrace → reported = ⟨rest.headD eof, cause⟩ ::
          (Parsed.ofTokens (ts ++ ([lbrace, rbrace] ++ Cursor.resumed rest) ++ [eof])
            first).errors) ∧
      (¬ Stops goes rest → reported.length ≤ 1) ∧
      ((rest = [] ∨ ∃ declares vs k cause' goes' last others,
        Plain declares j vs k cause' goes' ∧ last.kind = .semicolon ∧
          rest = vs ++ last :: others) → reported.length ≤ 1) := by
  intro reported
  have hderives := (Parsed.ofTokens_eq_ok_iff hbody heof).mp hread
  refine ⟨hderives.splits hsemicolon rfl front rest rfl, ?_⟩
  rintro ts i us j cause goes rfl hopened hunfinished
  rw [List.append_assoc ts us] at hbody hread
  have h : EndsStatement first ts i us j cause goes semicolon rest eof :=
    ⟨hopened, hunfinished, hsemicolon, hbody, heof, by rw [hread]; rfl⟩
  have hreported : reported = (Parsed.ofTokens (ts ++ (us ++ rest) ++ [eof]) first).errors := by
    rw [← List.append_assoc ts us]
  rw [hreported]
  refine ⟨fun hstop lbrace rbrace hlbrace hrbrace => h.errors_of_stops hstop hlbrace hrbrace,
    h.length_errors_le, fun hplain => ?_⟩
  obtain ⟨k, hreads⟩ := h.readsOn_of_plain hplain
  exact h.length_errors_le_of_readsOn hreads

/-- In `fun f() { if (a) print nil; nil; }` the first semicolon may be left out for one error, at
the second `nil`. -/
theorem missing_semicolons_are_reported_once_in_body :
    let word (kind : Kind) (lexeme : String) : Token := ⟨kind, lexeme, 1⟩
    let name := word .identifier "f"
    let a := word .identifier "a"
    let null := word .kwNil "nil"
    let semicolon := word .semicolon ";"
    let eof := word .eof ""
    let ts := [word .kwFun "fun", name, word .leftParen "(", word .rightParen ")",
      word .leftBrace "\x7b"]
    let us := [word .kwIf "if", word .leftParen "(", a, word .rightParen ")",
      word .kwPrint "print", null]
    let rest := [null, semicolon, word .rightBrace "\x7d"]
    Parsed.ofTokens (ts ++ us ++ semicolon :: rest ++ [eof]) 0 =
      ⟨.ok [.function (.mk name [] [.ifThen (.variable 0 a) (.print (.literal .nil)),
        .expression (.literal .nil)])], 1⟩ ∧
    (Parsed.ofTokens (ts ++ us ++ rest ++ [eof]) 0).errors =
      [⟨null, .noSemicolonAfterValue⟩] := by
  intro word name a null semicolon eof ts us rest
  have hnil : Derives .expression 1 [null] (.literal .nil) 1 := .of_primary (.nilWord rfl)
  have hif : Leading 0 [word .kwIf "if", word .leftParen "(", a, word .rightParen ")"] 1 :=
    .ifThen rfl rfl (.name rfl) rfl .none
  have hplace : Opened 0 ts 0 := .function rfl (.bare rfl rfl rfl rfl) .here
  have hstatement : Unfinished 0 us 1 .noSemicolonAfterValue Kind.extendsExpression :=
    .mk (.statement hif) (.value (.print rfl) hnil)
  have hnext : Plain false 1 [null] 1 .noSemicolonAfterExpression Kind.extendsExpression :=
    .value .expression hnil
  have hprint : Derives (.statement false) 1 (word .kwPrint "print" :: [null] ++ [semicolon])
      (.print (.literal .nil)) 1 := .print rfl hnil rfl
  have hthen : Derives (.statement true) 0 (word .kwIf "if" :: word .leftParen "(" :: [a] ++
      word .rightParen ")" :: (word .kwPrint "print" :: [null] ++ [semicolon])) _ 1 :=
    .ifThen false rfl rfl (.name rfl) rfl hprint
  have hsecond : Derives .exprStmt 1 ([null] ++ [semicolon]) _ 1 := .exprStmt hnil rfl
  have hbody := Derives.declarations (.statement true hthen)
    (.declarations (.statement false (.exprStatement hsecond)) .noDeclarations)
  have hfunction : Derives .function 0 (name :: word .leftParen "(" :: word .rightParen ")" ::
      word .leftBrace "\x7b" :: _ ++ [word .rightBrace "\x7d"]) _ 1 :=
    .functionBare rfl rfl rfl rfl hbody rfl
  have hprogram := Derives.declarations (.funDecl (rfl : (word .kwFun "fun").kind = .kwFun)
    hfunction) .noDeclarations
  have hread : Parsed.ofTokens (ts ++ us ++ semicolon :: rest ++ [eof]) 0 = _ :=
    (Parsed.ofTokens_eq_ok_iff (by decide) (rfl : eof.isEof = true)).mpr hprogram
  refine ⟨hread, ?_⟩
  obtain ⟨-, hreported⟩ := missing_semicolons_are_reported_once (ts ++ us) rest semicolon eof 0 1 _
    (by decide) rfl rfl hread
  obtain ⟨hstop, -, hplain⟩ := hreported ts 0 us 1 _ _ rfl hplace hstatement
  have hlength := hplain (.inr ⟨_, _, _, _, _, _, _, hnext, rfl, rfl⟩)
  have herrors := hstop (.cons (by decide) _) (word .leftBrace "\x7b") (word .rightBrace "\x7d") rfl
    rfl
  rw [herrors] at hlength ⊢
  have hnone := List.length_eq_zero_iff.mp (Nat.le_zero.mp (Nat.le_of_succ_le_succ hlength))
  rw [hnone]
  rfl

/-- Recovery skips the brace after a statement without its semicolon, and the block is open to the
end. `{ print nil; }` is a program, and `{ print nil }` has two errors. -/
theorem missing_semicolons_may_cascade :
    let word (kind : Kind) (lexeme : String) : Token := ⟨kind, lexeme, 1⟩
    let rbrace := word .rightBrace "\x7d"
    let eof := word .eof ""
    let front := [word .leftBrace "\x7b", word .kwPrint "print", word .kwNil "nil"]
    Parsed.ofTokens (front ++ word .semicolon ";" :: [rbrace] ++ [eof]) 0 =
      ⟨.ok [.block [.print (.literal .nil)]], 0⟩ ∧
    (Parsed.ofTokens (front ++ [rbrace] ++ [eof]) 0).errors =
      [⟨rbrace, .noSemicolonAfterValue⟩, ⟨eof, .noBraceAfterBlock⟩] :=
  ⟨rfl, rfl⟩

end ScriptLang
