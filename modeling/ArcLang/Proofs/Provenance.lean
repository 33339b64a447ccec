import ArcLang.Proofs.Parts
import ArcLang.Proofs.Positions
import ArcLang.Proofs.Runs

/-!
# Where the parts of a program come from

Whatever was wrong with the tokens, and wherever the parse recovered, the names of a parsed program
are identifiers of the input, and its types and expressions are what some tokens of the input denote
that stand next to each other. Recovery only leaves out.

* `Node.Traced`: what a node comes from, kind by kind.
* `Parser.Traces`: a rule gives nothing but what comes from the input.
* `Parser.program_traced`: so it is with programs.
-/

namespace ArcLang

namespace Node

/-- The name is that of an identifier among the tokens. -/
def NamedIn (ts : List Token) (name : String) : Prop :=
  ∃ t ∈ ts, t.kind = .identifier ∧ t.lexeme = name

/-- What the node itself says comes from the tokens: a name from an identifier, a type and an
expression from tokens that stand together. -/
def Traced (ts : List Token) : Node → Prop
  | function f => NamedIn ts f.name
  | struct s => NamedIn ts s.name
  | parameter b | field b => NamedIn ts b.name
  | typeName t => ∃ d : Grammar.TypeName, d.tree = t ∧ d.tokens <:+: ts ∧ Grammar.Resolve d.lengths
  | expression e => ∃ d : Grammar.Expr, d.tree = e ∧ d.tokens <:+: ts
  | _ => True

end Node

namespace Grammar

variable {ts : List Token}

theorem TypeName.traced (d : TypeName) (h : d.tokens <:+: ts) (hlengths : Resolve d.lengths) :
    (Node.typeName d.tree).Throughout (Node.Traced ts) := by
  induction d with
  | array opener element comma length closer ih =>
    have helement : element.tokens <:+: ts :=
      .trans ⟨[opener.1], [comma.1, length.1, closer.1], by simp [TypeName.tokens]⟩ h
    have hinner := ih helement fun t ht => hlengths t (List.mem_append_left _ ht)
    refine Node.throughout_iff.2 ⟨?_, List.forall_mem_singleton.2 hinner⟩
    exact ⟨.array opener element comma length closer, rfl, h, hlengths⟩
  | _ => exact Node.throughout_iff.2 ⟨⟨_, rfl, h, hlengths⟩, List.forall_mem_nil _⟩

theorem Expr.traced (d : Expr) (h : d.tokens <:+: ts) :
    (Node.expression d.tree).Throughout (Node.Traced ts) := by
  intro n hn
  obtain ⟨e, rfl⟩ := Node.eq_expression_of_mem_nodes hn
  exact d.parts h _ hn

/-- An element stands among the tokens of the list. -/
theorem Elements.tokens_within {α : Type} {f : α → List Token} {a : α} : {es : Elements α} →
    a ∈ es.list → f a <:+: es.tokens f
  | .last b, h => by
    rw [List.mem_singleton.1 h]
    exact List.infix_rfl
  | .more b comma rest, h => by
    rcases List.mem_cons.1 h with rfl | h
    · exact ⟨[], comma.1 :: rest.tokens f, rfl⟩
    · refine (tokens_within h).trans ⟨f b ++ [comma.1], [], ?_⟩
      simp [Elements.tokens]

/-- Parameters and fields are named by identifiers, and have types that come from the tokens. -/
theorem bindings_traced (node : ArcLang.Binding → Node)
    (hroot : ∀ b, Node.NamedIn ts b.name → (node b).Traced ts)
    (hchildren : ∀ b, (node b).children = [.typeName b.type]) (ds : Elements Binding)
    (h : ds.tokens Binding.tokens <:+: ts)
    (hlengths : Resolve (ds.list.flatMap (·.type.lengths))) :
    ∀ b ∈ ds.list.map Binding.tree, (node b).Throughout (Node.Traced ts) := by
  refine List.forall_mem_map.2 fun d hd => ?_
  have hd' : d.tokens <:+: ts := (Elements.tokens_within hd).trans h
  have hname : d.name.1 ∈ ts := hd'.subset List.mem_cons_self
  have htype : d.type.tokens <:+: ts :=
    .trans ⟨[d.name.1, d.colon.1], [], by simp [Binding.tokens]⟩ hd'
  have htraced := d.type.traced htype fun t ht => hlengths t (List.mem_flatMap.2 ⟨d, hd, ht⟩)
  refine Node.throughout_iff.2 ⟨hroot _ ⟨d.name.1, hname, d.name.2, rfl⟩, ?_⟩
  rw [hchildren]
  exact List.forall_mem_singleton.2 htraced

end Grammar

/-- What a state leads to has nothing before it that was not there. -/
theorem State.Leads.input_within {s s' : State} {ts : List Token} (h : s.Leads s')
    (hs : s.input <:+: ts) : s'.input <:+: ts := by
  obtain ⟨us, hus⟩ := h
  rw [hus.input] at hs
  exact (List.suffix_append us s'.input).isInfix.trans hs

theorem State.Consumes.within {s s' : State} {us ts : List Token} (h : s.Consumes us s')
    (hs : s.input <:+: ts) : us <:+: ts := by
  rw [h.input] at hs
  exact (List.prefix_append us s'.input).isInfix.trans hs

namespace Parser

variable {α : Type} {env : Setting} {s s' : State} {ts : List Token}

/-- Where the input stands among the tokens, it does so behind the rule, and everything in what the
rule gives comes from the tokens. -/
def Traces (ts : List Token) (node : α → Node) (p : Parser α) : Prop :=
  ∀ {env s a s'}, s.input <:+: ts → Gives p env s a s' →
    s'.input <:+: ts ∧ (node a).Throughout (Node.Traced ts)

theorem ReadsExpr.traces {k : Nat} {p : Parser Expr} (h : ReadsExpr k p) :
    Traces ts .expression p := by
  intro env s e s' hs he
  obtain ⟨d, hd, rfl, -⟩ := h he
  exact ⟨hd.leads.input_within hs, d.traced (hd.within hs)⟩

/-- **What a statement gives comes from the input** if its expressions and bodies do. -/
theorem statement_traces {expression : Parser Expr} {body : Parser Block}
    (he : Traces ts .expression expression) (hb : Traces ts .block body) :
    Traces ts .statement (statement expression body) := by
  intro env s st s' hs h
  cases statement_gives h with
  | breakLoop word stop hc | ret word stop hc =>
    exact ⟨hc.leads.input_within hs, Node.throughout_iff.2 ⟨trivial, List.forall_mem_nil _⟩⟩
  | retValue word stop hword hvalue hstop =>
    obtain ⟨hs, hvalue⟩ := he (hword.leads.input_within hs) hvalue
    refine ⟨hstop.leads.input_within hs, Node.throughout_iff.2 ⟨trivial, ?_⟩⟩
    exact List.forall_mem_singleton.2 hvalue
  | loop word hword hcondition hinner =>
    obtain ⟨hs, hcondition⟩ := he (hword.leads.input_within hs) hcondition
    obtain ⟨hs, hinner⟩ := hb hs hinner
    refine ⟨hs, Node.throughout_iff.2 ⟨trivial, ?_⟩⟩
    exact List.forall_mem_cons.2 ⟨hcondition, List.forall_mem_singleton.2 hinner⟩
  | branch word hword hcondition hconsequent hc =>
    obtain ⟨hs, hcondition⟩ := he (hword.leads.input_within hs) hcondition
    obtain ⟨hs, hconsequent⟩ := hb hs hconsequent
    refine ⟨hc.leads.input_within hs, Node.throughout_iff.2 ⟨trivial, ?_⟩⟩
    exact List.forall_mem_cons.2 ⟨hcondition, List.forall_mem_singleton.2 hconsequent⟩
  | branchElse word other hword hcondition hconsequent hother halternate =>
    obtain ⟨hs, hcondition⟩ := he (hword.leads.input_within hs) hcondition
    obtain ⟨hs, hconsequent⟩ := hb hs hconsequent
    obtain ⟨hs, halternate⟩ := hb (hother.leads.input_within hs) halternate
    refine ⟨hs, Node.throughout_iff.2 ⟨trivial, ?_⟩⟩
    exact List.forall_mem_cons.2
      ⟨hcondition, List.forall_mem_cons.2 ⟨hconsequent, List.forall_mem_singleton.2 halternate⟩⟩
  | expression first stop _ hc hexpr hstop =>
    obtain ⟨hs, hexpr⟩ := he (hc.leads.input_within hs) hexpr
    refine ⟨hstop.leads.input_within hs, Node.throughout_iff.2 ⟨trivial, ?_⟩⟩
    exact List.forall_mem_singleton.2 hexpr

/-- **A repetition with recovery** has only members that its rule gives. -/
theorem RepeatedRun.traces {node : α → Node} {rule : Parser α} {skip : Parser Unit}
    {resting : Parser Bool} {last : State → Prop} {as : List α}
    (h : RepeatedRun rule skip resting last env s as s') (traces : Traces ts node rule)
    (hrule : Steady [] rule) (hskip : Steady [] skip) (hresting : Steady [] resting)
    (hs : s.input <:+: ts) :
    s'.input <:+: ts ∧ ∀ a ∈ as, (node a).Throughout (Node.Traced ts) := by
  induction h with
  | done hl _ => exact ⟨hl.input_within hs, List.forall_mem_nil _⟩
  | kept hc ha _ ih =>
    obtain ⟨hs, ha⟩ := traces (hc.leads.input_within hs) ha
    obtain ⟨hs, has⟩ := ih hs
    exact ⟨hs, List.forall_mem_cons.2 ⟨ha, has⟩⟩
  | skipped hc hx _ ih =>
    have hl := hc.leads.trans ((steady_recover hrule hskip hresting).leads hx)
    exact ih (hl.input_within hs)

theorem body_traces (room : Nat) : Traces ts .block (body room) := by
  induction room with
  | zero => exact fun _ h => absurd h not_gives_body_zero
  | succ room ih =>
    intro env s b s' hs h
    obtain ⟨opener, statements, closer, s₁, s₂, hopener, hrun, hcloser, rfl⟩ := body_gives h
    obtain ⟨hs, hstatements⟩ := hrun.traces
      (statement_traces (ReadsExpr.traces (expression_sound room)) ih)
      (steady_statementWithin room) steady_skipStatement (steady_check _)
      (hopener.leads.input_within hs)
    refine ⟨hcloser.leads.input_within hs, Node.throughout_iff.2 ⟨trivial, ?_⟩⟩
    exact List.forall_mem_map.2 hstatements

theorem item_traces (room : Nat) : Traces ts .ofItem (item room) := by
  intro env s i s' hs h
  cases item_gives h with
  | function word hword hf =>
    obtain ⟨name, opener, parameters, closer, result, hfront, hlengths, hrlengths, -, -, hinner,
      hc⟩ := function_gives hf
    have hs := hword.leads.input_within hs
    have hwithin := hfront.within hs
    obtain ⟨hs, hinner⟩ := body_traces room (hfront.leads.input_within hs) hinner
    refine ⟨hc.leads.input_within hs, Node.throughout_iff.2 ⟨?_, ?_⟩⟩
    · exact ⟨name.1, hwithin.subset List.mem_cons_self, name.2, rfl⟩
    refine List.forall_mem_append.2 ⟨List.forall_mem_append.2 ⟨?_, ?_⟩, ?_⟩
    · have hparameters : parameters.tokens Grammar.Binding.tokens <:+: ts :=
        .trans ⟨[name.1, opener.1], _, rfl⟩ hwithin
      exact List.forall_mem_map.2 (Grammar.bindings_traced .parameter (fun _ hb => hb)
        (fun _ => rfl) parameters hparameters hlengths)
    · cases result with
      | none => exact List.forall_mem_nil _
      | some r =>
        have hr : r.2.tokens <:+: ts := by
          refine List.IsInfix.trans (List.IsSuffix.isInfix ?_) hwithin
          exact ⟨name.1 :: opener.1 :: parameters.tokens Grammar.Binding.tokens ++
            [closer.1, r.1.1], by simp⟩
        exact List.forall_mem_singleton.2 (r.2.traced hr hrlengths)
    · exact List.forall_mem_singleton.2 hinner
  | struct word hword hd =>
    obtain ⟨name, opener, fields, closer, hc, hlengths, -, rfl⟩ := struct_gives hd
    have hs := hword.leads.input_within hs
    have hwithin := hc.within hs
    have hfields : fields.tokens Grammar.Binding.tokens <:+: ts :=
      .trans ⟨[name.1, opener.1], [closer.1], by simp⟩ hwithin
    refine ⟨hc.leads.input_within hs, Node.throughout_iff.2 ⟨?_, ?_⟩⟩
    · exact ⟨name.1, hwithin.subset List.mem_cons_self, name.2, rfl⟩
    · exact List.forall_mem_map.2 (Grammar.bindings_traced .field (fun _ hb => hb)
        (fun _ => rfl) fields hfields hlengths)
  | statement hc hst =>
    exact statement_traces (ReadsExpr.traces (expression_sound room)) (body_traces room)
      (hc.leads.input_within hs) hst

/-- **Everything in a program comes from the input,** whatever was wrong with the tokens. -/
theorem program_traced {p : Program} (h : Gives program env s p s') :
    (Node.program p).Throughout (Node.Traced s.input) := by
  obtain ⟨acc, s₁, t, hacc, -, -, hitems, -⟩ := program_gives h
  obtain ⟨-, htraced⟩ := (items_give hacc).traces (item_traces env.room) (steady_item env.room)
    steady_skipItem (.pure false) List.infix_rfl
  rw [← hitems] at htraced
  exact Node.throughout_iff.2 ⟨trivial, List.forall_mem_map.2 htraced⟩

end Parser

end ArcLang
