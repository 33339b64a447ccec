import ArcLang.Proofs.Runs

/-!
# What statements and programs are read from

Bodies and programs recover from broken statements, so their rules also succeed on tokens that are
not derived. Whatever they give is grouped by precedence; and if no diagnostic has been recorded by
the end, nothing was skipped: the tokens consumed are derived and the result is what they denote.

* `Parser.statement_sound`, `Parser.body_sound`, `Parser.item_sound`: the rules with recovery
  inside.
* `Parser.program_sound`: the rule for programs.
-/

namespace ArcLang

namespace Node

theorem assignsToPlace_of_grouped {p : Program} (h : (program p).Throughout Grouped) {i : Item}
    (hi : i ∈ p.items) : (ofItem i).Throughout AssignsToPlace := by
  have hitem : (ofItem i).Throughout Grouped := h.child (List.mem_map_of_mem hi)
  exact hitem.imp fun n hn => hn.assignsToPlace

end Node

namespace Parser

variable {α δ : Type} {env : Setting} {s s' : State}

/-- What the rule gives is grouped; and where no diagnostic has been recorded by then, it is what
the consumed tokens denote by a derivation that is good. -/
def Sound (node : α → Node) (tokens : δ → List Token) (tree : δ → α) (good : δ → Prop)
    (p : Parser α) : Prop :=
  ∀ {env s a s'}, Gives p env s a s' → (node a).Throughout Node.Grouped ∧
    (s.Clean s' → ∃ d, s.Consumes (tokens d) s' ∧ tree d = a ∧ good d)

/-- Sound for statements with no more levels of nesting than so many. -/
abbrev SoundStmt (k : Nat) (p : Parser Stmt) : Prop :=
  Sound .statement Grammar.Statement.tokens Grammar.Statement.tree (fun d => d.tree.need ≤ k) p

/-- Sound for bodies with no more levels of nesting than so many. -/
abbrev SoundBody (k : Nat) (p : Parser Block) : Prop :=
  Sound .block Grammar.Body.tokens Grammar.Body.tree (fun d => d.tree.need ≤ k) p

/-- An expression that is read, in the form in which statements use it. -/
theorem ReadsExpr.grouped {k : Nat} {p : Parser Expr} (h : ReadsExpr k p) {e : Expr}
    (he : Gives p env s e s') : ∃ d : Grammar.Expr, s.Consumes d.tokens s' ∧ d.tree = e ∧
      (Node.expression e).Throughout Node.Grouped ∧ e.need < k := by
  obtain ⟨d, hd, rfl, hplaced, hneed⟩ := h he
  exact ⟨d, hd, rfl, d.isGrouped_tree hplaced, hneed⟩

/-! ## Statements -/

/-- **A statement is sound** if its expressions and bodies are. -/
theorem statement_sound {k : Nat} {expression : Parser Expr} {body : Parser Block}
    (he : ReadsExpr (k + 1) expression) (hb : SoundBody k body)
    (leads : ∀ {env s b s'}, Gives body env s b s' → s.Leads s') :
    SoundStmt k (statement expression body) := by
  intro env s st s' h
  cases statement_gives h with
  | breakLoop word stop hc =>
    refine ⟨Node.throughout_iff.2 ⟨trivial, List.forall_mem_nil _⟩, fun _ => ?_⟩
    exact ⟨.breakLoop word stop, hc, rfl, Nat.zero_le k⟩
  | ret word stop hc =>
    refine ⟨Node.throughout_iff.2 ⟨trivial, List.forall_mem_nil _⟩, fun _ => ?_⟩
    exact ⟨.ret word none stop, hc, rfl, Nat.zero_le k⟩
  | retValue word stop hword hvalue hstop =>
    obtain ⟨d, hd, rfl, hg, hneed⟩ := he.grouped hvalue
    refine ⟨Node.throughout_iff.2 ⟨trivial, List.forall_mem_singleton.2 hg⟩, fun _ => ?_⟩
    exact ⟨.ret word (some d) stop, hword.trans (hd.trans hstop), rfl, Nat.le_of_lt_succ hneed⟩
  | loop word hword hcondition hinner =>
    obtain ⟨dc, hdc, rfl, hcg, hcneed⟩ := he.grouped hcondition
    obtain ⟨hbg, hbc⟩ := hb hinner
    have hfront := hword.trans hdc
    refine ⟨Node.throughout_iff.2 ⟨trivial, ?_⟩, fun clean => ?_⟩
    · exact List.forall_mem_cons.2 ⟨hcg, List.forall_mem_singleton.2 hbg⟩
    · obtain ⟨db, hdb, rfl, hbneed⟩ := hbc (clean.since hfront.leads)
      refine ⟨.loop word dc db, hfront.trans hdb, ?_, ?_⟩
      · rw [hdb.previousEnd_eq db.tokens_ne_nil db.span_tree]; rfl
      · exact Nat.max_le.2 ⟨Nat.le_of_lt_succ hcneed, hbneed⟩
  | branch word hword hcondition hconsequent hc =>
    obtain ⟨dc, hdc, rfl, hcg, hcneed⟩ := he.grouped hcondition
    obtain ⟨hbg, hbc⟩ := hb hconsequent
    have hfront := hword.trans hdc
    refine ⟨Node.throughout_iff.2 ⟨trivial, ?_⟩, fun clean => ?_⟩
    · exact List.forall_mem_cons.2 ⟨hcg, List.forall_mem_singleton.2 hbg⟩
    · obtain ⟨db, hdb, rfl, hbneed⟩ := hbc ((clean.since hfront.leads).until hc.leads)
      have hb := hdb.before hc
      refine ⟨.branch word dc db, hfront.trans hb, ?_, ?_⟩
      · rw [hb.previousEnd_eq db.tokens_ne_nil db.span_tree]; rfl
      · exact Nat.max_le.2 ⟨Nat.le_of_lt_succ hcneed, hbneed⟩
  | branchElse word other hword hcondition hconsequent hother halternate =>
    obtain ⟨dc, hdc, rfl, hcg, hcneed⟩ := he.grouped hcondition
    obtain ⟨hbg, hbc⟩ := hb hconsequent
    obtain ⟨hag, hac⟩ := hb halternate
    have hfront := hword.trans hdc
    refine ⟨Node.throughout_iff.2 ⟨trivial, ?_⟩, fun clean => ?_⟩
    · exact List.forall_mem_cons.2 ⟨hcg, List.forall_mem_cons.2 ⟨hbg,
        List.forall_mem_singleton.2 hag⟩⟩
    · -- nothing takes diagnostics back, so there were none behind the first body either
      have between := hother.leads.trans (leads halternate)
      obtain ⟨db, hdb, rfl, hbneed⟩ := hbc ((clean.since hfront.leads).until between)
      have hfront := hfront.trans (hdb.trans hother)
      obtain ⟨da, hda, rfl, haneed⟩ := hac (clean.since hfront.leads)
      refine ⟨.branchElse word dc db other da, ?_, ?_, ?_⟩
      · simpa [Grammar.Statement.tokens] using hfront.trans hda
      · rw [hda.previousEnd_eq da.tokens_ne_nil da.span_tree]; rfl
      · exact Nat.max_le.2 ⟨Nat.max_le.2 ⟨Nat.le_of_lt_succ hcneed, hbneed⟩, haneed⟩
  | expression first stop hs hc hexpr hstop =>
    obtain ⟨d, hd, rfl, hg, hneed⟩ := he.grouped hexpr
    refine ⟨Node.throughout_iff.2 ⟨trivial, List.forall_mem_singleton.2 hg⟩, fun _ => ?_⟩
    refine ⟨.expression d stop, hc.after (hd.trans hstop), ?_, Nat.le_of_lt_succ hneed⟩
    -- the token that the rule began with is the first of the expression
    obtain ⟨u, r, htokens, -⟩ := d.starts
    have hread := (hc.after hd).input
    rw [htokens] at hread
    obtain rfl : first = u := hs.eq_of_input hread
    rw [Grammar.Statement.tree, d.span_tree, htokens]
    rfl

/-! ## Repetition with recovery -/

/-- **A repetition with recovery:** each round keeps what the rule gives and leaves out what it
recovers from, which no clean run does. -/
theorem RepeatedRun.sound {node : α → Node} {tokens : δ → List Token} {tree : δ → α}
    {good : δ → Prop} {rule : Parser α} {skip : Parser Unit} {resting : Parser Bool}
    {last : State → Prop} {as : List α} (h : RepeatedRun rule skip resting last env s as s')
    (sound : Sound node tokens tree good rule) (hrule : Steady [] rule) (hskip : Steady [] skip)
    (hresting : Steady [] resting) :
    (∀ a ∈ as, (node a).Throughout Node.Grouped) ∧ (s.Clean s' → ∃ ds : List δ,
      s.Consumes (ds.flatMap tokens) s' ∧ ds.map tree = as ∧ (∀ d ∈ ds, good d) ∧ last s') := by
  induction h with
  | done _ hclean =>
    refine ⟨List.forall_mem_nil _, fun clean => ?_⟩
    obtain ⟨hc, hlast⟩ := hclean clean
    exact ⟨[], hc, rfl, List.forall_mem_nil _, hlast⟩
  | kept hc ha hrest ih =>
    obtain ⟨hg, hread⟩ := sound ha
    obtain ⟨hgs, hreads⟩ := ih
    refine ⟨List.forall_mem_cons.2 ⟨hg, hgs⟩, fun clean => ?_⟩
    have hl := hrest.leads hrule hskip hresting
    obtain ⟨d, hd, rfl, hgood⟩ := hread ((clean.since hc.leads).until hl)
    have hc := hc.after hd
    obtain ⟨ds, hds, rfl, hgoods, hlast⟩ := hreads (clean.since hc.leads)
    exact ⟨d :: ds, hc.trans hds, rfl, List.forall_mem_cons.2 ⟨hgood, hgoods⟩, hlast⟩
  | skipped hc hx hrest ih =>
    -- the diagnostic of a recovery is still there at the end
    have hl := hrest.leads hrule hskip hresting
    refine ⟨ih.1, fun clean => absurd (hl.errors_eq_nil clean.silent) ?_⟩
    exact errors_ne_nil_of_recover_none hrule hskip hresting (hc.candid clean.candid) hx

/-! ## Bodies -/

theorem body_sound (room : Nat) : SoundBody room (body room) := by
  induction room with
  | zero => exact fun h => absurd h not_gives_body_zero
  | succ room ih =>
    intro env s b s' h
    obtain ⟨opener, statements, closer, s₁, s₂, hopener, hrun, hcloser, rfl⟩ := body_gives h
    have sound : SoundStmt room (statement (expression room) (body room)) :=
      statement_sound (expression_sound room) ih fun h => (steady_body room : Steady [] _).leads h
    obtain ⟨hg, hclean⟩ := hrun.sound sound (steady_statementWithin room) steady_skipStatement
      (steady_check _)
    refine ⟨Node.throughout_iff.2 ⟨trivial, List.forall_mem_map.2 hg⟩, fun clean => ?_⟩
    -- without diagnostics nothing was recovered from, so all the statements are there
    obtain ⟨ds, hds, rfl, hneeds, -⟩ :=
      hclean ((clean.since hopener.leads).until hcloser.leads)
    refine ⟨.mk opener ds closer, ?_, ?_, ?_⟩
    · rw [Grammar.Body.tokens, Grammar.statementsTokens_eq]
      simpa using hopener.trans (hds.trans hcloser)
    · rw [Grammar.Body.tree, Grammar.statementsTrees_eq]
    · show Stmt.needEach (Grammar.statementsTrees ds) + 1 ≤ room + 1
      rw [Grammar.statementsTrees_eq]
      exact Nat.succ_le_succ (Stmt.needEach_le_iff.2 (List.forall_mem_map.2 hneeds))

/-! ## Items and programs -/

/-- What is good about an item that is read with so much room. -/
abbrev GoodItem (room : Nat) (d : Grammar.Item) : Prop :=
  Grammar.Resolve d.lengths ∧ d.tree.need ≤ room

theorem item_sound (room : Nat) :
    Sound .ofItem Grammar.Item.tokens Grammar.Item.tree (GoodItem room) (item room) := by
  intro env s i s' h
  cases item_gives h with
  | function word hword hf =>
    obtain ⟨name, opener, parameters, closer, result, hfront, hlengths, hrlengths, hneed, hrneed,
      hinner, hc⟩ := function_gives hf
    obtain ⟨hbg, hbclean⟩ := body_sound room hinner
    have hfront := hword.trans hfront
    refine ⟨Node.throughout_function (fun _ => trivial) (fun _ => trivial) trivial hbg,
      fun clean => ?_⟩
    obtain ⟨db, hdb, rfl, hbneed⟩ := hbclean ((clean.since hfront.leads).until hc.leads)
    have hb := hdb.before hc
    refine ⟨.function ⟨word, name, opener, parameters, closer, result, db⟩, ?_, ?_, ?_, ?_⟩
    · simpa [Grammar.Item.tokens, Grammar.Function.tokens] using hfront.trans hb
    · rw [hb.previousEnd_eq db.tokens_ne_nil db.span_tree]
      rfl
    · exact fun t ht => (List.mem_append.1 ht).elim (hlengths t) (hrlengths t)
    · exact Nat.max_le.2 ⟨hneed, Nat.max_le.2 ⟨hrneed, hbneed⟩⟩
  | struct word hword hd =>
    obtain ⟨name, opener, fields, closer, hc, hlengths, hneed, rfl⟩ := struct_gives hd
    refine ⟨Node.throughout_struct (fun _ => trivial) (fun _ => trivial) trivial, fun _ => ?_⟩
    refine ⟨.struct ⟨word, name, opener, fields, closer⟩, ?_, rfl, hlengths, hneed⟩
    simpa [Grammar.Item.tokens, Grammar.Struct.tokens] using hword.trans hc
  | statement hc hst =>
    obtain ⟨hg, hclean⟩ := statement_sound (expression_sound room) (body_sound room)
      (fun h => (steady_body room : Steady [] _).leads h) hst
    refine ⟨hg, fun clean => ?_⟩
    obtain ⟨d, hd, rfl, hneed⟩ := hclean (clean.since hc.leads)
    exact ⟨.statement d, hc.after hd, rfl, List.forall_mem_nil _, hneed⟩

/-- **A program is grouped, and without diagnostics it is what the whole input denotes.** -/
theorem program_sound {p : Program} (h : Gives program env s p s') :
    (Node.program p).Throughout Node.Grouped ∧ (s.Clean s' → ∃ d : Grammar.Program,
      s.Consumes s.input s' ∧ d.tokens = s.input ∧ d.trees = p.items ∧
        Grammar.Resolve d.lengths ∧ p.need ≤ env.room ∧ ∀ t ∈ s.input, t.isError = false) := by
  obtain ⟨acc, s₁, t, hacc, hc, -, hitems, -⟩ := program_gives h
  obtain ⟨hg, hclean⟩ := (items_give hacc).sound (item_sound env.room) (steady_item env.room)
    steady_skipItem (.pure false)
  rw [← hitems] at hg hclean
  refine ⟨Node.throughout_iff.2 ⟨trivial, List.forall_mem_map.2 hg⟩, fun clean => ?_⟩
  obtain ⟨ds, hds, hlist, hgoods, hend⟩ := hclean (clean.until hc.leads)
  have hinput : s.input = ds.flatMap Grammar.Item.tokens := by
    rw [hds.input, hend, List.append_nil]
  refine ⟨⟨ds⟩, hinput ▸ hds.before hc, hinput.symm, hlist, fun u hu => ?_, ?_, fun u hu => ?_⟩
  · obtain ⟨d, hd, hu⟩ := List.mem_flatMap.1 hu
    exact (hgoods d hd).1 u hu
  · show needMost Item.need p.items ≤ env.room
    rw [← hlist, needMost_le_iff]
    exact List.forall_mem_map.2 fun d hd => (hgoods d hd).2
  -- an error token in the input would have been reported
  · rw [← Bool.not_eq_true]
    intro he
    exact hds.told clean.candid u (hinput ▸ hu) he (hc.errors_eq_nil clean.silent)

end Parser

end ArcLang
