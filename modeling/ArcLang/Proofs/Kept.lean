import ArcLang.Proofs.Concerning
import ArcLang.Proofs.Straying

/-!
# What is kept is clean

A rule that succeeds has met no fault outside the bodies that it reads. So the items of a program
are clean up to their bodies, and so are the statements that bodies keep: no diagnostic is inside
one of them, unless at its start, where something before it broke off, or inside a body of its own.

* `State.Hears`: a run whose diagnostics are about what comes next, or are inside bodies.
* `Parser.body_contains`, `Parser.program_gathers`: what bodies and programs keep.
* `parse_keeps_clean`: the statement.
-/

namespace ArcLang

/-- The diagnostic is inside the body, whose statements are free of it. -/
def Diagnostic.Within (d : Diagnostic) (b : Block) : Prop :=
  ∃ l, d.place = some l ∧ b.span.Holds l ∧ (Node.block b).Throughout (Node.FreeOf d)

/-- A diagnostic about one of the tokens of a body is inside it. -/
theorem Diagnostic.Within.of_spans {d : Diagnostic} {b : Block} {ts : List Token} {t : Token}
    (hspans : (Node.block b).Spans ts) (hstanding : Standing ts) (ht : t ∈ ts)
    (hconcerns : d.Concerns t)
    (hfree : ∀ c ∈ (Node.block b).children, c.Throughout (Node.FreeOf d)) : d.Within b := by
  obtain ⟨l, hl, -⟩ := id hconcerns
  obtain ⟨hle, hge, -⟩ := hstanding.cover_le ht
  have hspan : b.span = cover ts := hspans.span_eq
  have hholds : b.span.Holds l := by
    rw [hspan]
    exact ⟨hle.trans (hconcerns.le hl),
      lt_of_lt_of_le (hconcerns.lt hl (hstanding.nonempty t ht)) hge⟩
  refine ⟨l, hl, hholds, Node.throughout_iff.2 ⟨fun m hm _ => .inr ⟨b, ?_, ?_⟩, hfree⟩⟩
  · rw [Node.nodes_eq]
    exact List.mem_cons_self
  · obtain rfl := Option.some.inj (hl.symm.trans hm)
    exact hholds

namespace State

/-- The run starts with no error token, and what it tells is about an error token that it stops at,
or inside one of the bodies. -/
structure Hears (s : State) (bodies : List Block) (ts : List Token) (ds : List Diagnostic)
    (s' : State) : Prop where
  tells : s.Tells Diagnostic.Concerns [] true ts ds s'
  proper : ∀ t ∈ ts.head?, t.isError = false
  told : ∀ d ∈ ds, (∃ t, s'.ahead = some t ∧ t.isError = true ∧ d.Concerns t) ∨
    ∃ b ∈ bodies, d.Within b

variable {s s' s'' : State} {ts us : List Token} {ds es : List Diagnostic} {bs cs : List Block}
  {n : Node}

namespace Hears

/-- Without recovery nothing else is told. -/
theorem of_tells (h : s.Tells Diagnostic.Concerns [] false ts ds s') : s.Hears [] ts ds s' where
  tells := { h with proper := nofun }
  proper t ht := (h.proper rfl).1 t (List.mem_of_mem_head? ht)
  told d hd := .inl ((h.proper rfl).2 d hd)

theorem trans (h : s.Hears bs ts ds s') (h' : s'.Hears cs us es s'') :
    s.Hears (bs ++ cs) (ts ++ us) (ds ++ es) s'' where
  tells := h.tells.trans (List.forall_mem_nil _) h'.tells
  proper t ht := by
    cases ts with
    | nil => exact h'.proper t ht
    | cons u ts => exact h.proper t ht
  told d hd := by
    rcases List.mem_append.1 hd with hd | hd
    · rcases h.told d hd with ⟨t, ht, herror, hconcerns⟩ | ⟨b, hb, hin⟩
      · refine .inl ⟨t, ?_, herror, hconcerns⟩
        -- an error token is not what the second run starts with
        cases us with
        | nil => exact (h'.tells.consumes.touched ht).resolve_left List.not_mem_nil
        | cons u us =>
          obtain rfl := h'.tells.consumes.head_of_ahead ht
          rw [h'.proper u rfl] at herror
          cases herror
      · exact .inr ⟨b, List.mem_append_left cs hb, hin⟩
    · rcases h'.told d hd with hahead | ⟨b, hb, hin⟩
      · exact .inl hahead
      · exact .inr ⟨b, List.mem_append_right bs hb, hin⟩

/-- A node is free of what is told, if the bodies are its own. -/
theorem gathers (h : s.Hears bs ts ds s') (hs : s.Ready) (hn : n.Spans ts)
    (hbodies : ∀ b ∈ bs, Node.block b ∈ n.children) : s.Gathers [n] ts ds s' where
  tells := h.tells
  lays := .one ⟨hn, h.proper⟩
  free d hd m hm := by
    obtain rfl := List.mem_singleton.1 hm
    rcases h.told d hd with ⟨t, ht, -, hconcerns⟩ | ⟨b, hb, l, hl, hholds, hfree⟩
    · obtain ⟨l, hl, -⟩ := id hconcerns
      refine hn.freeOf_behind hl fun u hu => ?_
      exact (hs.stop_le h.tells.consumes hu (mem_stream_of_ahead ht)).trans (hconcerns.le hl)
    · exact hn.freeOf_block (hs.standing_of_consumes h.tells.consumes) hl (hbodies b hb) hholds
        hfree

end Hears

end State

namespace Parser

open Node (Spans)

variable {α β : Type} {env : Setting} {s s' : State} {t : Token}

/-- Outside bodies nothing is recovered from. -/
theorem Parallel.hears {f : Location → Location} {v : α → β} {p : Parser α} {q : Parser β}
    (h : Parallel f { mends := false } v p q) (hs : s.Ready) {a : α} (ha : Gives p env s a s') :
    ∃ ts ds, s.Hears [] ts ds s' := by
  have htells : Accounts Diagnostic.Concerns { mends := false } s (p env s) :=
    h.tells concerns_ofPlace hs.sited (by rintro t ⟨⟩)
  rw [ha] at htells
  obtain ⟨ts, ds, htells⟩ := htells
  exact ⟨ts, ds, .of_tells htells⟩

/-- All that is told in the run is about what comes next, or inside bodies of the node. -/
def Heard (s : State) (n : Node) (s' : State) : Prop :=
  ∃ bodies ts ds, s.Hears bodies ts ds s' ∧ ∀ b ∈ bodies, Node.block b ∈ n.children

theorem Heard.refl (s : State) (n : Node) : Heard s n s :=
  ⟨[], [], [], .of_tells (.refl s), List.forall_mem_nil _⟩

/-- What comes before in the rule. -/
theorem Heard.after {n : Node} {s'' : State} {bodies : List Block} {ts : List Token}
    {ds : List Diagnostic} (h : s.Hears bodies ts ds s')
    (hbodies : ∀ b ∈ bodies, Node.block b ∈ n.children) (h' : Heard s' n s'') : Heard s n s'' := by
  obtain ⟨cs, us, es, h', hcs⟩ := h'
  exact ⟨_, _, _, h.trans h', List.forall_mem_append.2 ⟨hbodies, hcs⟩⟩

/-- In every run of the rule, all that is told is inside bodies of what it gives. -/
def Owns (node : α → Node) (p : Parser α) : Prop :=
  ∀ {env s a s'}, s.Ready → Gives p env s a s' → Heard s (node a) s'

/-- In every run of the rule for bodies, all that is told is inside the body. -/
def Contains (body : Parser Block) : Prop :=
  ∀ {env s b s'}, s.Ready → Gives body env s b s' → ∃ ts ds, s.Hears [b] ts ds s'

theorem Parallel.owns {f : Location → Location} {v : α → β} {p : Parser α} {q : Parser β}
    (h : Parallel f { mends := false } v p q) (node : α → Node) : Owns node p := by
  intro env s a s' hs ha
  obtain ⟨ts, ds, hhears⟩ := h.hears hs ha
  exact ⟨[], ts, ds, hhears, List.forall_mem_nil _⟩

/-- A word that has been looked at and is consumed, and a rule behind it. -/
theorem headed_heard {node : α → Node} {rule : Token → Parser α} {kind : Kind} {a : α}
    {s₁ : State} (hs : s.Ready) (hpeek : Gives peek env s t s₁) (hk : t.kind = kind)
    (hend : kind ≠ .endOfInput) (herror : kind ≠ .error) (rest : Owns node (rule t))
    (h : Gives (do rule (← advance)) env s₁ a s') : Heard s (node a) s' := by
  obtain ⟨hc, -, hahead⟩ := peek_gives hpeek
  obtain ⟨ds, htells⟩ : ∃ ds, s.Tells Diagnostic.Concerns [] false [] ds s₁ :=
    peek_tells hs.sited hpeek
  obtain ⟨u, s₂, hadvance, h⟩ := bind_gives h
  obtain ⟨rfl, rfl⟩ := (gives_advance hahead (isEnd_of_kind hk hend)).unique hadvance
  have htake := State.Consumes.take hahead (isEnd_of_kind hk hend)
  have hword : s₁.Tells Diagnostic.Concerns [] false [t] []
      { s₁ with ahead := none, previous := some t, consumed := s₁.consumed + 1 } := {
    consumes := htake
    errors := (List.append_nil _).symm
    on := List.forall_mem_nil _
    proper := fun _ =>
      ⟨List.forall_mem_singleton.2 (isError_of_kind hk herror), List.forall_mem_nil _⟩ }
  exact .after (.of_tells (htells.trans (List.forall_mem_nil _) hword)) (List.forall_mem_nil _)
    (rest ((hs.after hc).after htake) h)

/-! ## Statements -/

section Statements

variable {expression : Parser Expr} {body : Parser Block} {start : Token}

theorem branch_owns (he : ∀ k, Parallel id k (Expr.moved id) expression expression)
    (hb : Contains body) : Owns .statement (branch start expression body) := by
  intro env s st s' hs h
  obtain ⟨condition, s₁, hcondition, h⟩ := bind_gives h
  obtain ⟨consequent, s₂, hconsequent, h⟩ := bind_gives h
  obtain ⟨other, s₃, hother, h⟩ := bind_gives h
  obtain ⟨ts, ds, hhead⟩ := (he _).hears hs hcondition
  have hs₁ := hs.after hhead.tells.consumes
  obtain ⟨us, es, hbody⟩ := hb hs₁ hconsequent
  have hs₂ := hs₁.after hbody.tells.consumes
  have haccept : Parallel id { mends := false } id (accept (.keyword .elseWord))
      (accept (.keyword .elseWord)) := parallel_accept (by decide) (by decide)
  obtain ⟨vs, fs, haccept⟩ := haccept.hears hs₂ hother
  have hs₃ := hs₂.after haccept.tells.consumes
  refine .after hhead (List.forall_mem_nil _) ?_
  cases other with
  | true =>
    obtain ⟨t, s₄, ht, h⟩ := bind_gives h
    obtain ⟨gs, hlook⟩ : ∃ gs, s₃.Tells Diagnostic.Concerns [] false [] gs s₄ :=
      peek_tells hs₃.sited ht
    split at h
    case isTrue => exact absurd h not_gives_failAt
    case isFalse =>
      obtain ⟨alternate, s₅, halternate, h⟩ := bind_gives h
      obtain ⟨rfl, rfl⟩ := spanned_gives h
      obtain ⟨ws, hs, hother⟩ := hb (hs₃.after hlook.consumes) halternate
      refine .after hbody ?_ (.after haccept (List.forall_mem_nil _)
        (.after (.of_tells hlook) (List.forall_mem_nil _) (.after hother ?_ (.refl _ _))))
      · exact List.forall_mem_singleton.2 (by simp [Node.children, Node.statementChildren])
      · exact List.forall_mem_singleton.2 (by simp [Node.children, Node.statementChildren])
  | false =>
    obtain ⟨rfl, rfl⟩ := spanned_gives h
    refine .after hbody ?_ (.after haccept (List.forall_mem_nil _) (.refl _ _))
    exact List.forall_mem_singleton.2 (by simp [Node.children, Node.statementChildren])

theorem loop_owns (he : ∀ k, Parallel id k (Expr.moved id) expression expression)
    (hb : Contains body) : Owns .statement (loop start expression body) := by
  intro env s st s' hs h
  obtain ⟨condition, s₁, hcondition, h⟩ := bind_gives h
  obtain ⟨inner, s₂, hinner, h⟩ := bind_gives h
  obtain ⟨rfl, rfl⟩ := spanned_gives h
  obtain ⟨ts, ds, hhead⟩ := (he _).hears hs hcondition
  obtain ⟨us, es, hbody⟩ := hb (hs.after hhead.tells.consumes) hinner
  refine .after hhead (List.forall_mem_nil _) (.after hbody ?_ (.refl _ _))
  exact List.forall_mem_singleton.2 (by simp [Node.children, Node.statementChildren])

theorem statement_owns (he : ∀ k, Parallel id k (Expr.moved id) expression expression)
    (hb : Contains body) : Owns .statement (statement expression body) := by
  intro env s st s' hs h
  obtain ⟨t, s₁, ht, h⟩ := bind_gives h
  split at h
  case h_1 hk => exact headed_heard hs ht hk (by decide) (by decide) (branch_owns he hb) h
  case h_2 hk => exact headed_heard hs ht hk (by decide) (by decide) (loop_owns he hb) h
  case h_3 hk =>
    have rest : Owns .statement (ret t expression) := (parallel_ret t he).owns _
    exact headed_heard hs ht hk (by decide) (by decide) rest h
  case h_4 hk =>
    have rest : Owns .statement (breakLoop t) := (parallel_breakLoop (f := id) t).owns _
    exact headed_heard hs ht hk (by decide) (by decide) rest h
  case h_5 =>
    obtain ⟨ds, hlook⟩ : ∃ ds, s.Tells Diagnostic.Concerns [] false [] ds s₁ :=
      peek_tells hs.sited ht
    obtain ⟨e, s₂, hexpression, h⟩ := bind_gives h
    obtain ⟨stop, s₃, hstop, h⟩ := bind_gives h
    obtain ⟨rfl, rfl⟩ := spanned_gives h
    have hs₁ := hs.after hlook.consumes
    obtain ⟨us, es, hfirst⟩ := (he _).hears hs₁ hexpression
    have hexpect : Parallel id { mends := false } (Token.moved id)
        (expect (.symbol .semicolon) "';' after expression") _ :=
      parallel_expect (by decide) (by decide) _
    obtain ⟨vs, fs, hlast⟩ := hexpect.hears (hs₁.after hfirst.tells.consumes) hstop
    exact .after (.of_tells hlook) (List.forall_mem_nil _) (.after hfirst (List.forall_mem_nil _)
      (.after hlast (List.forall_mem_nil _) (.refl _ _)))

end Statements

/-! ## Bodies -/

/-- What the rule gives is free of what is told in the run. -/
def Gathering (node : α → Node) (rule : Parser α) : Prop :=
  ∀ {env s a s'}, s.Ready → Gives rule env s a s' → ∃ ts ds, s.Gathers [node a] ts ds s'

theorem gathering_of_owns {node : α → Node} {rule : Parser α} (founded : Founded node rule)
    (owns : Owns node rule) : Gathering node rule := by
  intro env s a s' hs h
  obtain ⟨us, hc, hspans⟩ := founded h
  obtain ⟨bodies, ts, ds, hhears, hbodies⟩ := owns hs h
  -- both speak of the tokens that the run consumes
  obtain rfl := hc.unique hhears.tells.consumes
  exact ⟨us, ds, hhears.gathers hs hspans hbodies⟩

/-- **A repetition with recovery:** what it adds to the list is free of all that is told in it. -/
theorem repeated_gathers {node : α → Node} {rule : Parser α} {skip : Parser Unit}
    {resting : Parser Bool} {step : Array α → Parser (ForInStep (Array α))}
    (gathering : Gathering node rule) (progresses : Progresses step)
    (tells : ∀ {env acc s r s'}, s.Ready → Gives (step acc) env s r s' →
      ∃ ts ds, s.Tells Diagnostic.Concerns [] true ts ds s')
    (done : ∀ {env acc s out s'}, Gives (step acc) env s (.done out) s' → out = acc)
    (yield : ∀ {env acc s out s'}, Gives (step acc) env s (.yield out) s' → ∃ t s₁ x,
      Gives peek env s t s₁ ∧ Gives (recover rule skip resting) env s₁ x s' ∧
        out = x.elim acc acc.push)
    {acc out : Array α} (hs : s.Ready) (h : Gives (iterate step acc) env s out s') :
    ∃ new ts ds, out.toList = acc.toList ++ new ∧ s.Gathers (new.map node) ts ds s' := by
  have hmotive : s.Ready →
      ∃ new ts ds, out.toList = acc.toList ++ new ∧ s.Gathers (new.map node) ts ds s' := by
    refine iterate_induction progresses (motive := fun acc s out s' => s.Ready →
      ∃ new ts ds, out.toList = acc.toList ++ new ∧ s.Gathers (new.map node) ts ds s') ?_ ?_ h
    · intro acc s out s' hstep hs
      obtain ⟨ts, ds, htells⟩ := tells hs hstep
      obtain rfl := done hstep
      exact ⟨[], ts, ds, (List.append_nil _).symm, .of_tells htells⟩
    · intro acc s acc₁ s₁ out s' hstep ih hs
      obtain ⟨t, s₀, x, hpeek, hx, rfl⟩ := yield hstep
      rcases recover_gives hx with ⟨a, rfl, ha⟩ | ⟨rfl, -⟩
      · obtain ⟨ds, hlook⟩ : ∃ ds, s.Tells Diagnostic.Concerns [] true [] ds s₀ :=
          peek_tells hs.sited hpeek
        have hs₀ := hs.after hlook.consumes
        obtain ⟨ts, es, hone⟩ := gathering hs₀ ha
        obtain ⟨new, us, fs, hout, hrest⟩ := ih (hs₀.after hone.tells.consumes)
        refine ⟨a :: new, _, _, ?_, .trans hs (.of_tells hlook) (.trans hs₀ hone hrest)⟩
        rw [hout]
        simp
      · -- whatever was told, no member comes of it
        obtain ⟨ts, ds, htells⟩ := tells hs hstep
        obtain ⟨new, us, es, hout, hrest⟩ := ih (hs.after htells.consumes)
        exact ⟨new, _, _, hout, .trans hs (.of_tells htells) hrest⟩
  exact hmotive hs

/-- What a rule tells, where it may recover. -/
theorem Parallel.tells_of_gives {f : Location → Location} {v : α → β} {p : Parser α} {q : Parser β}
    (h : Parallel f {} v p q) (hs : s.Ready) {a : α} (ha : Gives p env s a s') :
    ∃ ts ds, s.Tells Diagnostic.Concerns [] true ts ds s' := by
  have htells : Accounts Diagnostic.Concerns {} s (p env s) :=
    h.tells concerns_ofPlace hs.sited (Known.at_nothing s)
  rw [ha] at htells
  exact htells

theorem statement_gathering (room : Nat) (hb : Contains (body room)) :
    Gathering .statement (statement (expression room) (body room)) :=
  gathering_of_owns
    (statement_founded (ReadsExpr.founded (expression_sound room)) (body_founded room))
    (statement_owns (fun _ => parallel_expression) hb)

/-- **All that is told in a body is inside it,** and its statements are free of it. -/
theorem body_contains (room : Nat) : Contains (body room) := by
  induction room with
  | zero =>
    intro env s b s' _ h
    obtain ⟨opener, s₁, -, h⟩ := bind_gives h
    exact absurd h not_gives_tooDeep
  | succ room ih =>
    intro env s b s' hs hbody
    have hsettles : Settles false (body (room + 1)) := settles_body
    have hsettled := hsettles env s b s' hbody nofun
    obtain ⟨ts, hc, hspans⟩ := body_founded (room + 1) hbody
    obtain ⟨opener, s₁, ho, h⟩ := bind_gives hbody
    obtain ⟨acc, s₂, hacc, h⟩ := bind_gives h
    obtain ⟨closer, s₃, hcl, h⟩ := bind_gives h
    obtain ⟨rfl, rfl⟩ := spanned_gives h
    have hrule (k : Known) (hmends : k.mends = true) : Parallel id k (Stmt.moved id)
        (statement (expression room) (body room)) (statement (expression room) (body room)) :=
      parallel_statement hmends (fun _ => parallel_expression) fun _ => parallel_body
    have hopen : Parallel id {} (Token.moved id)
        (expect (.symbol .leftBrace) (quotedSymbol .leftBrace)) _ :=
      parallel_expect (by decide) (by decide) _
    have hclose : Parallel id {} (Token.moved id)
        (expectClosing (.symbol .rightBrace) (quotedSymbol .rightBrace) opener) _ :=
      parallel_expectClosing (by decide) (by decide) _ opener
    obtain ⟨us, ds, hfirst⟩ := hopen.tells_of_gives hs ho
    have hs₁ := hs.after hfirst.consumes
    obtain ⟨new, vs, es, hnew, hmiddle⟩ := repeated_gathers (statement_gathering room ih)
      (progresses_bodyStep (steady_statementWithin room) (eats_statementWithin room))
      (fun hs h => (parallel_bodyStep rfl hrule _).tells_of_gives hs h)
      (fun h => (bodyStep_done h).1) bodyStep_goes hs₁ hacc
    obtain ⟨ws, fs, hlast⟩ := hclose.tells_of_gives (hs₁.after hmiddle.tells.consumes) hcl
    have hall := State.Gathers.trans hs (.of_tells hfirst) (.trans hs₁ hmiddle (.of_tells hlast))
    have hword : us = [opener] := hfirst.consumes.unique (expect_gives (by decide) ho).2
    refine ⟨_, _, hall.tells, ?_, fun d hd => .inr ⟨_, List.mem_singleton_self _, ?_⟩⟩
    · rw [hword]
      rintro t ⟨⟩
      exact isError_of_kind (expect_gives (by decide) ho).1 (by decide)
    · obtain ⟨t, ht, hconcerns⟩ := hall.tells.on d hd
      -- no token is looked at behind the body, so this one is in it
      have hmem : t ∈ ts := by
        rw [hc.unique hall.tells.consumes]
        rcases ht with ht | ht | ht
        · cases ht
        · exact ht
        · rw [hsettled] at ht
          cases ht
      have hnew : acc.toList = new := by simpa using hnew
      refine .of_spans hspans (hs.standing_of_consumes hc) hmem hconcerns fun c hchild => ?_
      refine hall.free d hd c ?_
      rw [List.nil_append, List.append_nil, ← hnew]
      exact hchild

/-! ## Definitions and programs -/

theorem function_owns (room : Nat) (start : Token) : Owns .function (function start room) := by
  intro env s g s' hs h
  obtain ⟨name, s₁, hn, h⟩ := bind_gives h
  obtain ⟨opener, s₂, ho, h⟩ := bind_gives h
  obtain ⟨parameters, s₃, hp, h⟩ := bind_gives h
  obtain ⟨found, s₄, hfound, h⟩ := bind_gives h
  have hrest (result : Option TypeName) : Owns .function (do
      let body ← body room
      modify (·.note (.parsedFunction name.lexeme parameters.length))
      return (⟨← spanFrom start.place, name.lexeme, parameters, result, body⟩ : Function)) := by
    intro env s g s' hs h
    obtain ⟨body, s₁, hbody, h⟩ := bind_gives h
    obtain ⟨_, s₂, hnote, h⟩ := bind_gives h
    obtain ⟨rfl, rfl⟩ := spanned_gives h
    cases hnote
    obtain ⟨ts, ds, hhears⟩ := body_contains room hs hbody
    refine .after hhears (List.forall_mem_singleton.2 (by simp [Node.children])) ?_
    exact .after (.of_tells (.quiet (.note _) rfl)) (List.forall_mem_nil _) (.refl _ _)
  have hname : Parallel id { mends := false } (Token.moved id)
      (expect .identifier "function name") _ :=
    parallel_expect (by decide) (by decide) _
  have hopen : Parallel id { mends := false } (Token.moved id)
      (expect (.symbol .leftParen) (quotedSymbol .leftParen)) _ :=
    parallel_expect (by decide) (by decide) _
  have hparameters : Parallel id { mends := false } (List.map (Binding.moved id))
      (delimited opener .rightParen (binding "parameter" room)) _ :=
    parallel_delimited (fun _ => parallel_binding _) (steady_binding room _)
      (steady_binding room _) opener _
  have hcolon : Parallel id { mends := false } id (accept (.symbol .colon)) _ :=
    parallel_accept (by decide) (by decide)
  obtain ⟨ts₁, ds₁, h₁⟩ := hname.hears hs hn
  have hs₁ := hs.after h₁.tells.consumes
  obtain ⟨ts₂, ds₂, h₂⟩ := hopen.hears hs₁ ho
  have hs₂ := hs₁.after h₂.tells.consumes
  obtain ⟨ts₃, ds₃, h₃⟩ := hparameters.hears hs₂ hp
  have hs₃ := hs₂.after h₃.tells.consumes
  obtain ⟨ts₄, ds₄, h₄⟩ := hcolon.hears hs₃ hfound
  have hs₄ := hs₃.after h₄.tells.consumes
  refine .after (h₁.trans (h₂.trans (h₃.trans h₄))) (List.forall_mem_nil _) ?_
  dsimp only at h
  split at h
  · obtain ⟨result, s₅, hresult, h⟩ := bind_gives h
    obtain ⟨type, htype, rfl⟩ := map_gives hresult
    have htypeName : Parallel id { mends := false } (TypeName.moved id) (typeName room) _ :=
      parallel_typeName
    obtain ⟨ts₅, ds₅, h₅⟩ := htypeName.hears hs₄ htype
    exact .after h₅ (List.forall_mem_nil _) (hrest _ (hs₄.after h₅.tells.consumes) h)
  · obtain ⟨result, s₅, hresult, h⟩ := bind_gives h
    obtain ⟨rfl, rfl⟩ := pure_gives hresult
    exact hrest none hs₄ h

theorem item_owns (room : Nat) : Owns .ofItem (item room) := by
  intro env s i s' hs h
  obtain ⟨t, s₁, ht, h⟩ := bind_gives h
  split at h
  case h_1 hk =>
    have rest : Owns .ofItem (Item.function <$> function t room) := by
      intro env s i s' hs h
      obtain ⟨g, hg, rfl⟩ := map_gives h
      exact function_owns room t hs hg
    exact headed_heard hs ht hk (by decide) (by decide) rest h
  case h_2 hk =>
    have rest : Owns .ofItem (Item.struct <$> struct t room) := by
      intro env s i s' hs h
      obtain ⟨g, hg, rfl⟩ := map_gives h
      exact (parallel_struct (f := id) t).owns .struct hs hg
    exact headed_heard hs ht hk (by decide) (by decide) rest h
  case h_3 =>
    obtain ⟨st, hst, rfl⟩ := map_gives h
    obtain ⟨ds, hlook⟩ : ∃ ds, s.Tells Diagnostic.Concerns [] false [] ds s₁ :=
      peek_tells hs.sited ht
    exact .after (.of_tells hlook) (List.forall_mem_nil _) (statement_owns
      (fun _ => parallel_expression) (body_contains room) (hs.after hlook.consumes) hst)

/-- **The items of a program are free of all that is told** while the program is read. -/
theorem program_gathers {p : Program} (hs : s.Ready) (h : Gives program env s p s') :
    ∃ ts ds, s.Gathers (p.items.map .ofItem) ts ds s' := by
  obtain ⟨env', s₀, henv, h⟩ := bind_gives h
  cases henv
  obtain ⟨acc, s₁, hacc, h⟩ := bind_gives h
  obtain ⟨t, s₂, ht, h⟩ := bind_gives h
  obtain ⟨s₃, s₄, hget, h⟩ := bind_gives h
  cases hget
  obtain ⟨rfl, rfl⟩ := pure_gives h
  have gathering : Gathering .ofItem (item env.room) :=
    gathering_of_owns (item_founded env.room) (item_owns env.room)
  obtain ⟨new, ts, ds, hnew, hitems⟩ := repeated_gathers gathering
    (progresses_itemStep (eats_item env.room))
    (fun hs h => (parallel_itemStep (f := id) #[] rfl rfl _).tells_of_gives hs h)
    (fun h => (itemStep_done h).1)
    (fun h => by
      obtain ⟨t, s₁, x, ht, -, -, hx, hout⟩ := itemStep_goes h
      exact ⟨t, s₁, x, ht, hx, hout⟩) hs hacc
  -- the token that is looked at in the end may stand for a fault too
  obtain ⟨es, hlast⟩ : ∃ es, s₁.Tells Diagnostic.Concerns [] true [] es s₂ :=
    peek_tells (hs.after hitems.tells.consumes).sited ht
  have hall := State.Gathers.trans hs hitems (.of_tells hlast)
  have hnew : acc.toList = new := by simpa using hnew
  rw [List.append_nil, ← hnew] at hall
  exact ⟨_, _, hall⟩

end Parser

/-! ## Texts -/

section Texts

variable {text file : String} {o : Options} {r : Parsed}

/-- **What is kept is clean,** up to the bodies: no diagnostic is inside an item, or inside a node
of an item, but at the node's very start or inside a body that is part of the node. The statements
that the body keeps are such nodes again. -/
theorem parse_keeps_clean (h : parse text file o = .ok r) :
    ∀ i ∈ r.program.items, ∀ n ∈ (Node.ofItem i).nodes, ∀ d ∈ r.diagnostics, n.FreeOf d := by
  intro i hi n hn d hd
  obtain ⟨s, hscans, hdiagnostics⟩ := parseScans_of_parse h
  obtain ⟨ts, ds, hall⟩ :=
    Parser.program_gathers (ready_startOf text file o.maxErrors) (parseScans_eq_ok_iff.1 hscans)
  have hmem : d ∈ ds := by
    rw [hdiagnostics, s.errors.sorted_perm.mem_iff, hall.tells.errors] at hd
    exact (List.mem_append.1 hd).resolve_left List.not_mem_nil
  exact hall.free d hmem _ (List.mem_map_of_mem hi) n hn

/-- The parse keeps an item that a diagnostic is inside of. -/
def TellsInside (text file : String) (o : Options) : Prop :=
  ∃ r, parse text file o = .ok r ∧ ∃ i ∈ r.program.items, ∃ d ∈ r.diagnostics, ∃ l,
    d.place = some l ∧ i.span.Holds l

theorem tellsInside_of_any (h : (parse text file o).toOption.map (fun r =>
    r.program.items.any fun i => r.diagnostics.any fun d => d.place.any fun l =>
      decide (i.span.Holds l)) = some true) : TellsInside text file o := by
  obtain ⟨r, hp, h⟩ := exists_of_map_toOption h
  obtain ⟨i, hi, h⟩ := List.any_eq_true.1 h
  obtain ⟨d, hd, h⟩ := List.any_eq_true.1 h
  obtain ⟨l, hl, h⟩ := (Option.any_eq_true _ _).1 h
  exact ⟨r, hp, i, hi, d, hd, l, hl, of_decide_eq_true h⟩

/-- A statement that breaks off at an `if` is told at the start of the `if`, which is kept; and a
broken statement in a body is told inside the function, which is kept too. -/
theorem parse_tells_inside : TellsInside "x if y \x7b \x7d" "m.arc" {} ∧
    TellsInside "fun f() \x7b x y; \x7d" "m.arc" {} :=
  ⟨tellsInside_of_any (by decide +kernel), tellsInside_of_any (by decide +kernel)⟩

/-- A function with a loop in it, where a statement is broken. -/
theorem parse_keeps_clean_around : ∃ r,
    parse "fun f() \x7b while a \x7b x y; b(); \x7d \x7d" "m.arc" {} = .ok r ∧
      r.isClean = false ∧ r.program.items.length = 1 ∧
      ∀ i ∈ r.program.items, ∀ n ∈ (Node.ofItem i).nodes, ∀ d ∈ r.diagnostics, n.FreeOf d := by
  have h : (parse "fun f() \x7b while a \x7b x y; b(); \x7d \x7d" "m.arc" {}).toOption.map
      (fun r => (r.isClean, r.program.items.length)) = some (false, 1) := by
    decide +kernel
  obtain ⟨r, hp, hseen⟩ := exists_of_map_toOption h
  obtain ⟨hclean, hlength⟩ := Prod.mk.inj hseen
  exact ⟨r, hp, hclean, hlength, parse_keeps_clean hp⟩

end Texts

end ArcLang
