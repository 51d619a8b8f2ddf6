import ScriptLang.Proofs.Grammar.Expressions

/-! Reading statements, declarations and whole programs is sound. A program that is read without
an error is a list of declarations of the grammar. -/

namespace ScriptLang

namespace Parser

/-! ### Statements without statements inside -/

theorem expressionUnless_reads (n : Nat) (kind : Kind) (c : Cursor) :
    (expressionUnless n kind c).Satisfies (Reads .optional c) c.Leads
      (n < 16 * c.rest.length + 10) := by
  refine satisfies_unlessNext ⟨[], .refl c, by simp [Symbol.nonempty], fun _ => .absent⟩ ?_
  refine satisfies_map (((readsExpressions n).expression c).mono ?_ (fun _ => id) id)
  rintro e d ⟨ts, ht, -, hexpr⟩
  exact ⟨ts, ht, by simp [Symbol.nonempty], fun herr => .present (hexpr herr)⟩

theorem expressionStatement_reads (n : Nat) (c : Cursor) :
    (expressionStatement n c).Satisfies (Reads .exprStmt c) c.Leads
      (n < 16 * c.rest.length + 10) := by
  refine satisfies_bind ((readsExpressions n).expression c) ?_
  rintro e d ⟨ts, ht, -, hexpr⟩
  refine satisfies_expect ht.leads ?_
  intro semicolon rest hrest hkind
  exact ⟨_, ht.trans (.one hrest), by simp, fun herr => .exprStmt (hexpr herr) hkind⟩

theorem varDeclaration_reads (n : Nat) {c : Cursor} {keyword : Token} {rest : List Token}
    (hrest : c.rest = keyword :: rest) (hkind : keyword.kind = .kwVar) :
    (varDeclaration n { c with rest }).Satisfies (Reads .varDecl c) c.Leads
      (n < 16 * c.rest.length) := by
  have htake := Cursor.Took.one hrest
  refine satisfies_expect htake.leads ?_
  intro name rest' hname hident
  have htake' := htake.trans (.one hname)
  have hlength := htake'.length
  unfold initializer
  simp only [bind_assoc]
  refine satisfies_take? ?_ ?_
  · intro equal rest'' hequal hequalKind
    have htake'' := htake'.trans (.one hequal)
    have hlength := htake''.length
    simp only [List.length_append, List.length_singleton] at hlength
    refine satisfies_bind (M := fun e d => ∃ value, e = some value ∧
      Reads .expression { c with rest := rest'' } value d)
      (satisfies_map (((readsExpressions n).expression _).mono ?_
        (fun e he => htake''.leads.trans he) ?_)) ?_
    · intro e d hd
      exact ⟨e, rfl, hd⟩
    · simp only
      omega
    rintro _ d ⟨e, rfl, ts, ht, -, hexpr⟩
    refine satisfies_expect (htake''.trans ht).leads ?_
    intro semicolon rest''' hsemicolon hsemicolonKind
    refine ⟨_, (htake''.trans ht).trans (.one hsemicolon), by simp, fun herr => ?_⟩
    exact .varInit hkind hident hequalKind (hexpr herr) hsemicolonKind
  · intro _
    refine satisfies_expect htake'.leads ?_
    intro semicolon rest'' hsemicolon hsemicolonKind
    refine ⟨_, htake'.trans (.one hsemicolon), by simp, fun _ => ?_⟩
    exact .varBare hkind hident hsemicolonKind

theorem printStatement_reads (n : Nat) {c : Cursor} {keyword : Token} {rest : List Token}
    (hrest : c.rest = keyword :: rest) (hkind : keyword.kind = .kwPrint) :
    (printStatement n { c with rest }).Satisfies (Reads (.statement false) c) c.Leads
      (n < 16 * c.rest.length) := by
  have htake := Cursor.Took.one hrest
  refine satisfies_bind (((readsExpressions n).expression _).mono (fun _ _ => id)
    (fun e he => htake.leads.trans he) ?_) ?_
  · simp only [hrest, List.length_cons]
    omega
  rintro e d ⟨ts, ht, -, hexpr⟩
  refine satisfies_expect (htake.trans ht).leads ?_
  intro semicolon rest' hsemicolon hsemicolonKind
  exact ⟨_, (htake.trans ht).trans (.one hsemicolon), by simp,
    fun herr => .print hkind (hexpr herr) hsemicolonKind⟩

theorem returnStatement_reads (n : Nat) {c : Cursor} {keyword : Token} {rest : List Token}
    (hrest : c.rest = keyword :: rest) (hkind : keyword.kind = .kwReturn) :
    (returnStatement n keyword { c with rest }).Satisfies (Reads (.statement false) c) c.Leads
      (n < 16 * c.rest.length) := by
  have htake := Cursor.Took.one hrest
  refine satisfies_bind ((expressionUnless_reads n .semicolon _).mono (fun _ _ => id)
    (fun e he => htake.leads.trans he) ?_) ?_
  · simp only [hrest, List.length_cons]
    omega
  rintro e d ⟨ts, ht, -, hvalue⟩
  refine satisfies_expect (htake.trans ht).leads ?_
  intro semicolon rest' hsemicolon hsemicolonKind
  exact ⟨_, (htake.trans ht).trans (.one hsemicolon), by simp,
    fun herr => .ret hkind (hvalue herr) hsemicolonKind⟩

theorem loopInitializer_reads (n : Nat) (c : Cursor) :
    (loopInitializer n c).Satisfies (Reads .forInit c) c.Leads (n < 16 * c.rest.length + 10) := by
  refine satisfies_takeIf ?_ ?_
  · intro t rest hrest haccepts
    simp only
    split
    next hkind => exact ⟨[t], .one hrest, by simp, fun _ => .forNone hkind⟩
    next hkind =>
      have hvar : t.kind = .kwVar := by simpa [hkind] using haccepts
      refine satisfies_map ((varDeclaration_reads n hrest hvar).mono ?_ (fun _ => id) (by omega))
      rintro s d ⟨ts, ht, hne, hdecl⟩
      exact ⟨ts, ht, fun _ => hne rfl, fun herr => .forVar (hdecl herr)⟩
  · intro _
    refine satisfies_map ((expressionStatement_reads n c).mono ?_ (fun _ => id) id)
    rintro s d ⟨ts, ht, hne, hstmt⟩
    exact ⟨ts, ht, fun _ => hne rfl, fun herr => .forExpr (hstmt herr)⟩

theorem parameters_reads (n : Nat) (front : List Token) (c : Cursor) :
    (parameters n front c).Satisfies
      (fun ps d => ∃ rest, ps = front.reverse ++ rest ∧ Reads .parameters c rest d ∧
        (d.errors = [] → front.length + rest.length ≤ maxArity))
      c.Leads (n < 16 * c.rest.length + 1) := by
  induction n generalizing front c with
  | zero => simp [parameters, exhausted, Reply.Satisfies]
  | succ n ih =>
      unfold parameters
      refine satisfies_limit ?_
      intro c' hc hid hrest hlimit
      refine satisfies_expect hc.leads ?_
      intro name rest' hname hident
      have htake := hc.trans (.one hname)
      have hbound (herr : c'.errors = []) : front.length < maxArity := by simpa using hlimit herr
      refine satisfies_take? ?_ ?_
      · intro comma rest'' hcomma hcommaKind
        have htake' := htake.trans (.one hcomma)
        refine (ih (name :: front) { c' with rest := rest'' }).mono ?_
          (fun e he => htake'.leads.trans he) ?_
        · rintro ps d ⟨others, rfl, ⟨us, hu, -, hothers⟩, hmax⟩
          refine ⟨name :: others, by simp, ⟨name :: comma :: us, ?_, by simp, ?_⟩, ?_⟩
          · simpa using htake'.trans hu
          · intro herr
            exact .parameters hident hcommaKind (hid ▸ hothers herr)
          · intro herr
            have := hmax herr
            simp only [List.length_cons] at this ⊢
            omega
        · have := htake'.length
          simp only [List.length_append, List.length_nil, List.length_singleton] at this ⊢
          omega
      · intro _
        refine ⟨[name], by simp, ⟨[name], by simpa using htake, by simp, ?_⟩, hbound⟩
        intro _
        simp only [hid]
        exact .parameter hident

/-! ### Statements with statements inside -/

/-- A statement is read, and after one that dangles no `else` follows. -/
def ReadsStatement (c : Cursor) (s : Stmt) (d : Cursor) : Prop :=
  ∃ dangling, Reads (.statement dangling) c s d ∧
    (dangling = true → ∀ t ∈ d.rest.head?, t.kind ≠ .kwElse)

/-- What reading statements with the budget `n` does. A statement with a keyword is read from the
keyword on, and a block up to the brace that ends it. -/
structure ReadsStatements (n : Nat) : Prop where
  declaration : ∀ c, (declaration n c).Satisfies (Reads .declaration c) c.Leads
    (n < 16 * c.rest.length + 12)
  classDeclaration : ∀ c keyword rest, c.rest = keyword :: rest → keyword.kind = .kwClass →
    (classDeclaration n { c with rest }).Satisfies (Reads .declaration c) c.Leads
      (n < 16 * c.rest.length)
  methods : ∀ front c, (methods n front c).Satisfies
    (fun ds d => ∃ rest, ds = front.reverse ++ rest ∧ Reads .functions c rest d) c.Leads
    (n < 16 * c.rest.length + 2)
  function : ∀ what c, (function n what c).Satisfies (Reads .function c) c.Leads
    (n < 16 * c.rest.length + 1)
  statement : ∀ c, (statement n c).Satisfies (ReadsStatement c) c.Leads
    (n < 16 * c.rest.length + 11)
  forStatement : ∀ c keyword rest, c.rest = keyword :: rest → keyword.kind = .kwFor →
    (forStatement n { c with rest }).Satisfies (ReadsStatement c) c.Leads
      (n < 16 * c.rest.length)
  ifStatement : ∀ c keyword rest, c.rest = keyword :: rest → keyword.kind = .kwIf →
    (ifStatement n { c with rest }).Satisfies (ReadsStatement c) c.Leads
      (n < 16 * c.rest.length)
  whileStatement : ∀ c keyword rest, c.rest = keyword :: rest → keyword.kind = .kwWhile →
    (whileStatement n { c with rest }).Satisfies (ReadsStatement c) c.Leads
      (n < 16 * c.rest.length)
  block : ∀ front c, (block n front c).Satisfies
    (fun ss d => ∃ rest ts rbrace, ss = front.reverse ++ rest ∧ c.Took (ts ++ [rbrace]) d ∧
      rbrace.kind = .rightBrace ∧
      (d.errors = [] → Derives .declarations c.nextId ts rest d.nextId))
    c.Leads (n < 16 * c.rest.length + 13)

namespace ReadsStatements

variable {n : Nat}

theorem declaration_succ (h : ReadsStatements n) (c : Cursor) :
    (Parser.declaration (n + 1) c).Satisfies (Reads .declaration c) c.Leads
      (n + 1 < 16 * c.rest.length + 12) := by
  unfold Parser.declaration
  refine satisfies_takeIf ?_ ?_
  · intro t rest hrest haccepts
    have htake := Cursor.Took.one hrest
    have hlength : c.rest.length = rest.length + 1 := by rw [hrest, List.length_cons]
    simp only
    generalize hkind : t.kind = kind at haccepts
    cases kind with
    | kwClass =>
        exact (h.classDeclaration c t rest hrest hkind).mono (fun _ _ => id) (fun _ => id)
          (by omega)
    | kwFun =>
        refine satisfies_map ((h.function .function { c with rest }).mono ?_
          (fun e he => htake.leads.trans he) (by simp only [hlength]; omega))
        rintro decl d ⟨ts, ht, -, hdecl⟩
        exact ⟨t :: ts, htake.trans ht, by simp, fun herr => .funDecl hkind (hdecl herr)⟩
    | kwVar =>
        refine (varDeclaration_reads n hrest hkind).mono ?_ (fun _ => id) (by omega)
        rintro s d ⟨ts, ht, hne, hdecl⟩
        exact ⟨ts, ht, fun _ => hne rfl, fun herr => .varDecl (hdecl herr)⟩
    | _ => simp [Kind.beginsDeclaration] at haccepts
  · intro _
    refine (h.statement c).mono ?_ (fun _ => id) (by omega)
    rintro s d ⟨dangling, ⟨ts, ht, hne, hstmt⟩, -⟩
    exact ⟨ts, ht, fun _ => hne rfl, fun herr => .statement dangling (hstmt herr)⟩

theorem classDeclaration_succ (h : ReadsStatements n) (c : Cursor) (keyword : Token)
    (rest : List Token) (hrest : c.rest = keyword :: rest) (hkind : keyword.kind = .kwClass) :
    (Parser.classDeclaration (n + 1) { c with rest }).Satisfies (Reads .declaration c) c.Leads
      (n + 1 < 16 * c.rest.length) := by
  have htake := Cursor.Took.one hrest
  unfold Parser.classDeclaration superclass
  refine satisfies_expect htake.leads ?_
  intro name rest₁ hname hident
  have htake₁ := htake.trans (.one hname)
  simp only [bind_assoc]
  refine satisfies_take? ?_ ?_
  · intro less rest₂ hless hlessKind
    have htake₂ := htake₁.trans (.one hless)
    simp only [bind_assoc]
    refine satisfies_expect htake₂.leads ?_
    intro parent rest₃ hparent hparentKind
    have htake₃ := (htake₂.trans (.one hparent)).trans (.fresh _)
    refine satisfies_expect htake₃.leads ?_
    intro lbrace rest₄ hlbrace hlbraceKind
    have htake₄ := htake₃.trans (.one hlbrace)
    have hlength := htake₄.length
    refine satisfies_bind ((h.methods [] _).mono (fun _ _ => id)
      (fun e he => htake₄.leads.trans he) ?_) ?_
    · simp only [List.length_append, List.length_singleton] at hlength ⊢
      omega
    rintro _ d ⟨methods, rfl, ts, ht, -, hmethods⟩
    refine satisfies_expect (htake₄.trans ht).leads ?_
    intro rbrace rest₅ hrbrace hrbraceKind
    refine ⟨_, (htake₄.trans ht).trans (.one hrbrace), by simp, fun herr => ?_⟩
    exact .derivedClass hkind hident hlessKind hparentKind hlbraceKind (hmethods herr) hrbraceKind
  · intro _
    refine satisfies_expect htake₁.leads ?_
    intro lbrace rest₂ hlbrace hlbraceKind
    have htake₂ := htake₁.trans (.one hlbrace)
    have hlength := htake₂.length
    refine satisfies_bind ((h.methods [] _).mono (fun _ _ => id)
      (fun e he => htake₂.leads.trans he) ?_) ?_
    · simp only [List.length_append, List.length_singleton] at hlength ⊢
      omega
    rintro _ d ⟨methods, rfl, ts, ht, -, hmethods⟩
    refine satisfies_expect (htake₂.trans ht).leads ?_
    intro rbrace rest₃ hrbrace hrbraceKind
    refine ⟨_, (htake₂.trans ht).trans (.one hrbrace), by simp, fun herr => ?_⟩
    exact .baseClass hkind hident hlbraceKind (hmethods herr) hrbraceKind

theorem methods_succ (h : ReadsStatements n) (front : List FunctionDecl) (c : Cursor) :
    (Parser.methods (n + 1) front c).Satisfies
      (fun ds d => ∃ rest, ds = front.reverse ++ rest ∧ Reads .functions c rest d) c.Leads
      (n + 1 < 16 * c.rest.length + 2) := by
  unfold Parser.methods
  refine satisfies_nextOrEnd ?_ ?_
  · exact ⟨[], by simp, [], .refl c, by simp [Symbol.nonempty], fun _ => .noFunctions⟩
  intro t rest hrest _
  refine satisfies_bind ((h.function .method c).mono (fun _ _ => id) (fun _ => id) (by omega)) ?_
  intro method d hmethod
  have hlength := hmethod.length rfl
  obtain ⟨ts, ht, -, hmethod⟩ := hmethod
  refine (h.methods (method :: front) d).mono ?_ (fun e he => ht.leads.trans he) (by omega)
  rintro _ e ⟨others, rfl, us, hu, -, hothers⟩
  refine ⟨method :: others, by simp, ts ++ us, ht.trans hu, by simp [Symbol.nonempty], ?_⟩
  intro herr
  exact .functions (hmethod (hu.errors_nil herr)) (hothers herr)

theorem function_succ (h : ReadsStatements n) (what : Callable) (c : Cursor) :
    (Parser.function (n + 1) what c).Satisfies (Reads .function c) c.Leads
      (n + 1 < 16 * c.rest.length + 1) := by
  unfold Parser.function
  refine satisfies_expect (.refl c) ?_
  intro name rest₁ hname hident
  have htake₁ := Cursor.Took.one hname
  refine satisfies_expect htake₁.leads ?_
  intro lparen rest₂ hlparen hlparenKind
  have htake₂ := htake₁.trans (.one hlparen)
  have hlength := htake₂.length
  simp only [List.length_append, List.length_singleton] at hlength
  refine satisfies_bind (M := fun ps e => (ps = [] ∧ e = { c with rest := rest₂ }) ∨
    (Reads .parameters { c with rest := rest₂ } ps e ∧ (e.errors = [] → ps.length ≤ maxArity)))
    (satisfies_unlessNext (.inl ⟨rfl, rfl⟩) ((parameters_reads n [] _).mono ?_
      (fun e he => htake₂.leads.trans he) ?_)) ?_
  · rintro ps e ⟨_, rfl, hreads, hmax⟩
    exact .inr ⟨hreads, by simpa using hmax⟩
  · simp only
    omega
  rintro ps e (⟨rfl, rfl⟩ | ⟨⟨us, hu, -, hparams⟩, hmax⟩)
  · refine satisfies_expect htake₂.leads ?_
    intro rparen rest₃ hrparen hrparenKind
    have htake₃ := htake₂.trans (.one hrparen)
    refine satisfies_expect htake₃.leads ?_
    intro lbrace rest₄ hlbrace hlbraceKind
    have htake₄ := htake₃.trans (.one hlbrace)
    have hlength := htake₄.length
    refine satisfies_bind ((h.block [] _).mono (fun _ _ => id)
      (fun e he => htake₄.leads.trans he) ?_) ?_
    · simp only [List.length_append, List.length_singleton] at hlength ⊢
      omega
    rintro _ d ⟨body, ts, rbrace, rfl, ht, hrbraceKind, hbody⟩
    refine ⟨_, htake₄.trans ht, by simp, fun herr => ?_⟩
    simpa using Derives.functionBare hident hlparenKind hrparenKind hlbraceKind (hbody herr)
      hrbraceKind
  · have hstart := htake₂.trans hu
    refine satisfies_expect hstart.leads ?_
    intro rparen rest₃ hrparen hrparenKind
    have htake₃ := hstart.trans (.one hrparen)
    refine satisfies_expect htake₃.leads ?_
    intro lbrace rest₄ hlbrace hlbraceKind
    have htake₄ := htake₃.trans (.one hlbrace)
    have hlength := htake₄.length
    refine satisfies_bind ((h.block [] _).mono (fun _ _ => id)
      (fun e he => htake₄.leads.trans he) ?_) ?_
    · simp only [List.length_append, List.length_singleton] at hlength ⊢
      omega
    rintro _ d ⟨body, ts, rbrace, rfl, ht, hrbraceKind, hbody⟩
    refine ⟨_, htake₄.trans ht, by simp, fun herr => ?_⟩
    have herr' := ht.errors_nil herr
    simpa using Derives.function hident hlparenKind (hparams herr') (hmax herr') hrparenKind
      hlbraceKind (hbody herr) hrbraceKind

theorem statement_succ (h : ReadsStatements n) (c : Cursor) :
    (Parser.statement (n + 1) c).Satisfies (ReadsStatement c) c.Leads
      (n + 1 < 16 * c.rest.length + 11) := by
  unfold Parser.statement
  refine satisfies_takeIf ?_ ?_
  · intro t rest hrest haccepts
    have htake := Cursor.Took.one hrest
    have hlength : c.rest.length = rest.length + 1 := by rw [hrest, List.length_cons]
    simp only
    generalize hkind : t.kind = kind at haccepts
    cases kind with
    | kwFor =>
        exact (h.forStatement c t rest hrest hkind).mono (fun _ _ => id) (fun _ => id) (by omega)
    | kwIf =>
        exact (h.ifStatement c t rest hrest hkind).mono (fun _ _ => id) (fun _ => id) (by omega)
    | kwWhile =>
        exact (h.whileStatement c t rest hrest hkind).mono (fun _ _ => id) (fun _ => id) (by omega)
    | kwPrint =>
        exact (printStatement_reads n hrest hkind).mono (fun _ _ hd => ⟨false, hd, by simp⟩)
          (fun _ => id) (by omega)
    | kwReturn =>
        exact (returnStatement_reads n hrest hkind).mono (fun _ _ hd => ⟨false, hd, by simp⟩)
          (fun _ => id) (by omega)
    | leftBrace =>
        refine satisfies_map ((h.block [] { c with rest }).mono ?_
          (fun e he => htake.leads.trans he) (by simp only [hlength]; omega))
        rintro _ d ⟨body, ts, rbrace, rfl, ht, hrbraceKind, hbody⟩
        refine ⟨false, ⟨_, htake.trans ht, by simp, fun herr => ?_⟩, by simp⟩
        simpa using Derives.block hkind (hbody herr) hrbraceKind
    | _ => simp [Kind.beginsStatement] at haccepts
  · intro _
    refine (expressionStatement_reads n c).mono ?_ (fun _ => id) (by omega)
    rintro s d ⟨ts, ht, hne, hstmt⟩
    exact ⟨false, ⟨ts, ht, fun _ => hne rfl, fun herr => .exprStatement (hstmt herr)⟩, by simp⟩

theorem forStatement_succ (h : ReadsStatements n) (c : Cursor) (keyword : Token)
    (rest : List Token) (hrest : c.rest = keyword :: rest) (hkind : keyword.kind = .kwFor) :
    (Parser.forStatement (n + 1) { c with rest }).Satisfies (ReadsStatement c) c.Leads
      (n + 1 < 16 * c.rest.length) := by
  have htake := Cursor.Took.one hrest
  unfold Parser.forStatement
  refine satisfies_expect htake.leads ?_
  intro lparen rest₁ hlparen hlparenKind
  have htake₁ := htake.trans (.one hlparen)
  have hlength₁ := htake₁.length
  simp only [List.length_append, List.length_singleton] at hlength₁
  refine satisfies_bind ((loopInitializer_reads n _).mono (fun _ _ => id)
    (fun e he => htake₁.leads.trans he) (by simp only; omega)) ?_
  rintro init c₂ ⟨ts, ht, -, hinit⟩
  have htake₂ := htake₁.trans ht
  have hlength₂ := ht.length
  refine satisfies_bind ((expressionUnless_reads n .semicolon c₂).mono (fun _ _ => id)
    (fun e he => htake₂.leads.trans he) (by simp only at hlength₂; omega)) ?_
  rintro condition c₃ ⟨us, hu, -, hcondition⟩
  have htake₃ := htake₂.trans hu
  refine satisfies_expect htake₃.leads ?_
  intro semicolon rest₄ hsemicolon hsemicolonKind
  have htake₄ := htake₃.trans (.one hsemicolon)
  have hlength₄ := htake₄.length
  simp only [List.length_append, List.length_singleton] at hlength₄
  refine satisfies_bind ((expressionUnless_reads n .rightParen _).mono (fun _ _ => id)
    (fun e he => htake₄.leads.trans he) (by simp only; omega)) ?_
  rintro increment c₅ ⟨vs, hv, -, hincrement⟩
  have htake₅ := htake₄.trans hv
  refine satisfies_expect htake₅.leads ?_
  intro rparen rest₆ hrparen hrparenKind
  have htake₆ := htake₅.trans (.one hrparen)
  have hlength₆ := htake₆.length
  simp only [List.length_append, List.length_singleton] at hlength₆
  refine satisfies_bind ((h.statement _).mono (fun _ _ => id)
    (fun e he => htake₆.leads.trans he) (by simp only; omega)) ?_
  rintro body d ⟨dangling, ⟨ws, hw, -, hbody⟩, helse⟩
  refine ⟨dangling, ⟨_, htake₆.trans hw, by simp, fun herr => ?_⟩, helse⟩
  have herr₅ : c₅.errors = [] := hw.errors_nil herr
  have herr₃ : c₃.errors = [] := hv.errors_nil herr₅
  have herr₂ := hu.errors_nil herr₃
  simpa using Derives.forStatement hkind hlparenKind (hinit herr₂) (hcondition herr₃)
    hsemicolonKind (hincrement herr₅) hrparenKind (hbody herr) (Stmt.forForm_iff.mpr rfl)

theorem ifStatement_succ (h : ReadsStatements n) (c : Cursor) (keyword : Token)
    (rest : List Token) (hrest : c.rest = keyword :: rest) (hkind : keyword.kind = .kwIf) :
    (Parser.ifStatement (n + 1) { c with rest }).Satisfies (ReadsStatement c) c.Leads
      (n + 1 < 16 * c.rest.length) := by
  have htake := Cursor.Took.one hrest
  unfold Parser.ifStatement
  refine satisfies_expect htake.leads ?_
  intro lparen rest₁ hlparen hlparenKind
  have htake₁ := htake.trans (.one hlparen)
  have hlength₁ := htake₁.length
  simp only [List.length_append, List.length_singleton] at hlength₁
  refine satisfies_bind (((readsExpressions n).expression _).mono (fun _ _ => id)
    (fun e he => htake₁.leads.trans he) (by simp only; omega)) ?_
  rintro condition c₂ ⟨ts, ht, -, hcondition⟩
  have htake₂ := htake₁.trans ht
  refine satisfies_expect htake₂.leads ?_
  intro rparen rest₃ hrparen hrparenKind
  have htake₃ := htake₂.trans (.one hrparen)
  have hlength₃ := htake₃.length
  simp only [List.length_append, List.length_singleton] at hlength₃
  refine satisfies_bind ((h.statement _).mono (fun _ _ => id)
    (fun e he => htake₃.leads.trans he) (by simp only; omega)) ?_
  rintro thenBranch c₄ ⟨dangling, ⟨us, hu, -, hthen⟩, helse⟩
  have htake₄ := htake₃.trans hu
  refine satisfies_take? ?_ ?_
  · intro otherwise rest₅ hotherwise hotherwiseKind
    have htake₅ := htake₄.trans (.one hotherwise)
    have hlength₅ := htake₅.length
    simp only [List.length_append, List.length_singleton] at hlength₅
    have hclosed : dangling = false := by
      cases dangling with
      | false => rfl
      | true => exact absurd hotherwiseKind (helse rfl otherwise (by simp [hotherwise]))
    subst hclosed
    refine satisfies_bind ((h.statement _).mono (fun _ _ => id)
      (fun e he => htake₅.leads.trans he) (by simp only; omega)) ?_
    rintro elseBranch d ⟨dangling, ⟨vs, hv, -, helseBranch⟩, helse⟩
    refine ⟨dangling, ⟨_, htake₅.trans hv, by simp, fun herr => ?_⟩, helse⟩
    have herr₄ : c₄.errors = [] := hv.errors_nil herr
    have herr₂ : c₂.errors = [] := hu.errors_nil herr₄
    simpa using Derives.ifElse hkind hlparenKind (hcondition herr₂) hrparenKind (hthen herr₄)
      hotherwiseKind (helseBranch herr)
  · intro hnoElse
    refine ⟨true, ⟨_, htake₄, by simp, fun herr => ?_⟩, fun _ => hnoElse⟩
    have herr₂ : c₂.errors = [] := hu.errors_nil herr
    simpa using Derives.ifThen dangling hkind hlparenKind (hcondition herr₂) hrparenKind
      (hthen herr)

theorem whileStatement_succ (h : ReadsStatements n) (c : Cursor) (keyword : Token)
    (rest : List Token) (hrest : c.rest = keyword :: rest) (hkind : keyword.kind = .kwWhile) :
    (Parser.whileStatement (n + 1) { c with rest }).Satisfies (ReadsStatement c) c.Leads
      (n + 1 < 16 * c.rest.length) := by
  have htake := Cursor.Took.one hrest
  unfold Parser.whileStatement
  refine satisfies_expect htake.leads ?_
  intro lparen rest₁ hlparen hlparenKind
  have htake₁ := htake.trans (.one hlparen)
  have hlength₁ := htake₁.length
  simp only [List.length_append, List.length_singleton] at hlength₁
  refine satisfies_bind (((readsExpressions n).expression _).mono (fun _ _ => id)
    (fun e he => htake₁.leads.trans he) (by simp only; omega)) ?_
  rintro condition c₂ ⟨ts, ht, -, hcondition⟩
  have htake₂ := htake₁.trans ht
  refine satisfies_expect htake₂.leads ?_
  intro rparen rest₃ hrparen hrparenKind
  have htake₃ := htake₂.trans (.one hrparen)
  have hlength₃ := htake₃.length
  simp only [List.length_append, List.length_singleton] at hlength₃
  refine satisfies_bind ((h.statement _).mono (fun _ _ => id)
    (fun e he => htake₃.leads.trans he) (by simp only; omega)) ?_
  rintro body d ⟨dangling, ⟨us, hu, -, hbody⟩, helse⟩
  refine ⟨dangling, ⟨_, htake₃.trans hu, by simp, fun herr => ?_⟩, helse⟩
  have herr₂ : c₂.errors = [] := hu.errors_nil herr
  simpa using Derives.whileStatement hkind hlparenKind (hcondition herr₂) hrparenKind (hbody herr)

theorem block_succ (h : ReadsStatements n) (front : List Stmt) (c : Cursor) :
    (Parser.block (n + 1) front c).Satisfies
      (fun ss d => ∃ rest ts rbrace, ss = front.reverse ++ rest ∧ c.Took (ts ++ [rbrace]) d ∧
        rbrace.kind = .rightBrace ∧
        (d.errors = [] → Derives .declarations c.nextId ts rest d.nextId))
      c.Leads (n + 1 < 16 * c.rest.length + 13) := by
  unfold Parser.block
  refine satisfies_nextOrEnd ?_ ?_
  · refine satisfies_expect (.refl c) ?_
    intro rbrace rest hrbrace hkind
    exact ⟨[], [], rbrace, by simp, .one hrbrace, hkind, fun _ => .noDeclarations⟩
  intro t rest hrest _
  refine satisfies_recover ((h.declaration c).mono (fun _ _ => id) (fun _ => id) (by omega)) ?_ ?_
  · intro s d hs
    have hlength := hs.length rfl
    obtain ⟨ts, ht, -, hdecl⟩ := hs
    refine (h.block (s :: front) d).mono ?_ (fun e he => ht.leads.trans he) (by omega)
    rintro _ e ⟨others, us, rbrace, rfl, hu, hkind, hothers⟩
    refine ⟨s :: others, ts ++ us, rbrace, by simp, by simpa using ht.trans hu, hkind, ?_⟩
    intro herr
    exact .declarations (hdecl (hu.errors_nil herr)) (hothers herr)
  · intro d ts ht hne herr
    have hlength := ht.length
    have hpos := List.length_pos_iff.mpr (hne (by simp [hrest]))
    refine (h.block front d).mono ?_ (fun e he => ht.leads.trans he) (by omega)
    rintro _ e ⟨others, us, rbrace, rfl, hu, hkind, -⟩
    refine ⟨others, ts ++ us, rbrace, rfl, by simpa using ht.trans hu, hkind, ?_⟩
    intro herr'
    exact absurd (hu.errors_nil herr') herr

end ReadsStatements

/-- Reading statements is sound, whatever the budget. -/
theorem readsStatements (n : Nat) : ReadsStatements n := by
  induction n with
  | zero =>
      constructor <;> intros <;> simp only [declaration, classDeclaration, methods, function,
        statement, forStatement, ifStatement, whileStatement, block, exhausted,
        Reply.Satisfies, *, List.length_cons] <;> omega
  | succ n ih =>
      exact ⟨ih.declaration_succ, ih.classDeclaration_succ, ih.methods_succ, ih.function_succ,
        ih.statement_succ, ih.forStatement_succ, ih.ifStatement_succ, ih.whileStatement_succ,
        ih.block_succ⟩

/-! ### Programs -/

/-- A program is read up to the end, and never fails: its errors are noted. -/
theorem program_reads (n : Nat) (front : List Stmt) (c : Cursor) :
    (program n front c).Satisfies
      (fun ss d => ∃ rest, ss = front.reverse ++ rest ∧ Reads .declarations c rest d ∧ d.rest = [])
      (fun _ => False) (n < 16 * c.rest.length + 13) := by
  induction n generalizing front c with
  | zero => simp [program, exhausted, Reply.Satisfies]
  | succ n ih =>
      unfold program
      refine satisfies_atEnd ?_ ?_
      · intro hrest
        exact ⟨[], by simp,
          ⟨[], .refl c, by simp [Symbol.nonempty], fun _ => .noDeclarations⟩, hrest⟩
      intro hrest
      refine satisfies_recover (((readsStatements n).declaration c).mono (fun _ _ => id)
        (fun _ => id) (by omega)) ?_ ?_
      · intro s d hs
        have hlength := hs.length rfl
        obtain ⟨ts, ht, -, hdecl⟩ := hs
        refine (ih (s :: front) d).mono ?_ (fun _ => id) (by omega)
        rintro _ e ⟨others, rfl, ⟨us, hu, -, hothers⟩, hend⟩
        refine ⟨s :: others, by simp, ⟨ts ++ us, ht.trans hu, by simp [Symbol.nonempty], ?_⟩, hend⟩
        intro herr
        exact .declarations (hdecl (hu.errors_nil herr)) (hothers herr)
      · intro d ts ht hne herr
        have hlength := ht.length
        have hpos := List.length_pos_iff.mpr (hne hrest)
        refine (ih front d).mono ?_ (fun _ => id) (by omega)
        rintro _ e ⟨others, rfl, ⟨us, hu, -, -⟩, hend⟩
        refine ⟨others, rfl, ⟨ts ++ us, ht.trans hu, by simp [Symbol.nonempty], ?_⟩, hend⟩
        intro herr'
        exact absurd (hu.errors_nil herr') herr

end Parser

end ScriptLang
