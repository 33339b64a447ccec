import ArcLang.Proofs.ProgramSoundness

/-!
# The tokens that nodes stand on

Every node is read from tokens that follow one another: its span covers them, and its children are
read from parts of them, one part after the other. That holds of what a derivation denotes, and of
what the rules with recovery give, which may have skipped tokens between the children.

* `Node.Spans`: a node with the tokens that it is read from.
* `Grammar.Expr.spans`, `Grammar.TypeName.spans`: what derivations denote.
* `Parser.body_founded`, `Parser.item_founded`, `Parser.items_lays`: what the rules give.
-/

namespace ArcLang

theorem cover_between {ts us : List Token} (hts : ts ≠ []) (gap : List Token) (hus : us ≠ []) :
    cover (ts ++ gap ++ us) = (cover ts).upTo (cover us) := by
  cases gap with
  | nil => rw [List.append_nil, cover_append hts hus]
  | cons g gap =>
    have hgap : g :: gap ≠ [] := List.cons_ne_nil g gap
    rw [cover_append (List.append_ne_nil_of_left_ne_nil hts _) hus, cover_append hts hgap]
    rfl

/-! ## Nodes and their tokens -/

/-- The nodes come from disjoint parts of the tokens, in their order. -/
inductive Lays (spans : Node → List Token → Prop) : List Node → List Token → Prop
  | nil : Lays spans [] []
  /-- A token that belongs to none of them. -/
  | skip {ns : List Node} {ts : List Token} (t : Token) : Lays spans ns ts → Lays spans ns (t :: ts)
  | part {n : Node} {ns : List Node} {us ts : List Token} : spans n us → Lays spans ns ts →
      Lays spans (n :: ns) (us ++ ts)

/-- The node's span covers the tokens, and its children come from parts of them. -/
inductive Node.Spans : Node → List Token → Prop
  | mk {n : Node} {us : List Token} : us ≠ [] → n.span = cover us → Lays Spans n.children us →
      Spans n us

namespace Lays

variable {spans spans' : Node → List Token → Prop} {n : Node} {ns ms : List Node}
  {ts us : List Token}

theorem skipped (ts : List Token) : Lays spans [] ts := by
  induction ts with
  | nil => exact .nil
  | cons t ts ih => exact .skip t ih

theorem append (h : Lays spans ns ts) (h' : Lays spans ms us) :
    Lays spans (ns ++ ms) (ts ++ us) := by
  induction h with
  | nil => exact h'
  | skip t _ ih => exact .skip t ih
  | part hn _ ih => rw [List.append_assoc]; exact .part hn ih

/-- Tokens behind the last of the nodes. -/
theorem before (h : Lays spans ns ts) (us : List Token) : Lays spans ns (ts ++ us) := by
  simpa using h.append (skipped us)

/-- Tokens in front of the first of the nodes. -/
theorem behind (h : Lays spans ns ts) (us : List Token) : Lays spans ns (us ++ ts) :=
  (skipped us).append h

theorem of_eq (h : Lays spans ns ts) (heq : ts = us) : Lays spans ns us := heq ▸ h

theorem one (h : spans n us) : Lays spans [n] us := by
  simpa using Lays.part h .nil

/-- A single node, with tokens around its own. -/
theorem inside (h : spans n us) (front back : List Token) :
    Lays spans [n] (front ++ us ++ back) := ((one h).behind front).before back

theorem pair {m : Node} (h : spans n ts) (gap : List Token) (h' : spans m us) :
    Lays spans [n, m] (ts ++ gap ++ us) := by
  rw [List.append_assoc]
  exact .part h ((one h').behind gap)

/-- Every node has a part of the tokens for itself. -/
theorem exists_part (h : Lays spans ns ts) (hn : n ∈ ns) : ∃ us, spans n us ∧ us <:+: ts := by
  induction h with
  | nil => cases hn
  | skip t _ ih =>
    obtain ⟨us, hus, hin⟩ := ih hn
    exact ⟨us, hus, hin.trans (List.suffix_cons t _).isInfix⟩
  | @part m ns us ts hm _ ih =>
    rcases List.mem_cons.1 hn with rfl | hn
    · exact ⟨us, hm, (List.prefix_append us ts).isInfix⟩
    · obtain ⟨vs, hvs, hin⟩ := ih hn
      exact ⟨vs, hvs, hin.trans (List.suffix_append us ts).isInfix⟩

/-- The last of the nodes has a part, and those before it come from tokens before that part. -/
theorem exists_last (h : Lays spans (ns ++ [n]) ts) :
    ∃ front us back, ts = front ++ us ++ back ∧ Lays spans ns front ∧ spans n us := by
  generalize hms : ns ++ [n] = ms at h
  induction h generalizing ns with
  | nil => exact absurd hms (List.append_ne_nil_of_right_ne_nil _ (List.cons_ne_nil n []))
  | skip t _ ih =>
    obtain ⟨front, us, back, rfl, hfront, hn⟩ := ih hms
    exact ⟨t :: front, us, back, rfl, .skip t hfront, hn⟩
  | @part m _ us ts hm _ ih =>
    cases ns with
    | nil =>
      obtain ⟨rfl, -⟩ := List.cons.inj hms
      exact ⟨[], us, ts, rfl, .nil, hm⟩
    | cons k ns =>
      obtain ⟨rfl, hrest⟩ := List.cons.inj hms
      obtain ⟨front, vs, back, rfl, hfront, hn⟩ := ih hrest
      refine ⟨us ++ front, vs, back, ?_, .part hm hfront, hn⟩
      simp only [List.append_assoc]

end Lays

namespace Node.Spans

variable {n : Node} {us : List Token}

theorem ne_nil (h : n.Spans us) : us ≠ [] := by
  cases h with
  | mk hne _ _ => exact hne

theorem span_eq (h : n.Spans us) : n.span = cover us := by
  cases h with
  | mk _ hspan _ => exact hspan

theorem parts (h : n.Spans us) : Lays Spans n.children us := by
  cases h with
  | mk _ _ hparts => exact hparts

/-- **Every node below stands on a part of the tokens.** -/
theorem throughout {P : Node → Prop} (h : n.Spans us)
    (hP : ∀ m vs, m.Spans vs → vs <:+: us → P m) : n.Throughout P := by
  induction hn : sizeOf n using Nat.strongRecOn generalizing n us with
  | ind size ih =>
    refine throughout_iff.2 ⟨hP n us h (List.infix_refl us), fun c hc => ?_⟩
    obtain ⟨vs, hvs, hin⟩ := h.parts.exists_part hc
    exact ih (sizeOf c) (hn ▸ sizeOf_lt_of_mem_children hc) hvs
      (fun m ws hm hws => hP m ws hm (hws.trans hin)) rfl

/-- A node without children stands on one token. -/
theorem leaf {t : Token} (hspan : n.span = t.span) (hchildren : n.children = []) :
    n.Spans [t] := by
  refine .mk (List.cons_ne_nil t []) ?_ ?_
  · rw [hspan]; rfl
  · rw [hchildren]; exact .skipped [t]

theorem expression {e : Expr} (hne : us ≠ []) (hspan : e.span = cover us)
    (hparts : Lays Spans ((expressionChildren e).map .expression) us) :
    (Node.expression e).Spans us := .mk hne hspan hparts

theorem typeName {t : TypeName} (hne : us ≠ []) (hspan : t.span = cover us)
    (hparts : Lays Spans (Node.typeName t).children us) : (Node.typeName t).Spans us :=
  .mk hne hspan hparts

end Node.Spans

/-! ## What derivations denote -/

namespace Grammar

open Node (Spans)

theorem TypeName.spans : (t : TypeName) → (Node.typeName t.tree).Spans t.tokens
  | .bool _ => .leaf rfl rfl
  | .float _ => .leaf rfl rfl
  | .int _ _ _ => .leaf rfl rfl
  | .named _ => .leaf rfl rfl
  | .array opener element comma length closer => by
    refine .typeName (List.cons_ne_nil _ _) (span_tree _) ?_
    exact .inside element.spans [opener.1] [comma.1, length.1, closer.1]

theorem Binding.span_tree (b : Binding) : b.tree.span = cover b.tokens := by
  have hcover : cover (b.colon.1 :: b.type.tokens) = b.colon.1.span.upTo b.type.tree.span := by
    rw [cover_cons _ b.type.tokens_ne_nil, b.type.span_tree]
  rw [Binding.tokens, cover_cons _ (List.cons_ne_nil _ _), hcover]
  rfl

/-- The type of a binding is behind the name and the colon. -/
theorem Binding.lays (b : Binding) : Lays Spans [.typeName b.tree.type] b.tokens :=
  (Lays.one b.type.spans).behind [b.name.1, b.colon.1]

theorem Binding.parameter_spans (b : Binding) : (Node.parameter b.tree).Spans b.tokens :=
  .mk (List.cons_ne_nil _ _) b.span_tree b.lays

theorem Binding.field_spans (b : Binding) : (Node.field b.tree).Spans b.tokens :=
  .mk (List.cons_ne_nil _ _) b.span_tree b.lays

/-- **An operator and its right operand go behind an expression,** wherever in it they are put. -/
theorem graft_spans (op : BinaryOp) {x : ArcLang.Expr} {us : List Token}
    (hx : (Node.expression x).Spans us) (e : ArcLang.Expr) (gap : List Token) {ts : List Token}
    (he : (Node.expression e).Spans ts) :
    (Node.expression (ArcLang.Expr.graft op x e)).Spans (ts ++ gap ++ us) := by
  induction hn : sizeOf e using Nat.strongRecOn generalizing e ts gap with
  | ind size ih =>
    have hne : ts ++ gap ++ us ≠ [] := List.append_ne_nil_of_right_ne_nil _ hx.ne_nil
    have hspan : (ArcLang.Expr.graft op x e).span = cover (ts ++ gap ++ us) := by
      have hfront : e.span = cover ts := he.span_eq
      have hback : x.span = cover us := hx.span_eq
      rw [ArcLang.Expr.span_graft, hfront, hback, cover_between he.ne_nil gap hx.ne_nil]
    refine .mk hne hspan ?_
    have joined : Lays Spans [.expression e, .expression x] (ts ++ gap ++ us) := .pair he gap hx
    cases e with
    | binary span o l r =>
      rw [ArcLang.Expr.graft]
      split
      · -- what the right operand stands on grows, the left operand keeps its tokens
        have hparts : Lays Spans ([.expression l] ++ [.expression r]) ts := he.parts
        obtain ⟨front, vs, back, rfl, hl, hr⟩ := hparts.exists_last
        have hlt : sizeOf r < size := by rw [← hn, ArcLang.Expr.binary.sizeOf_spec]; omega
        have hgraft := ih (sizeOf r) hlt r (back ++ gap) hr rfl
        show Lays Spans ([.expression l] ++ [.expression (ArcLang.Expr.graft op x r)]) _
        simpa only [List.append_assoc] using hl.append (.one hgraft)
      · exact joined
    | _ => exact joined

mutual

theorem Expr.spans : (e : Expr) → (Node.expression e.tree).Spans e.tokens
  | .plain operand => operand.spans
  | .assign target op sign value => by
    refine .expression (Expr.starts _).ne_nil (Expr.span_tree _) ?_
    show Lays Spans [.expression target.tree, .expression value.tree] _
    simpa [Expr.tokens] using Lays.pair target.spans [sign.1] value.spans

theorem Chain.spans : (e : Chain) → (Node.expression e.tree).Spans e.tokens
  | .single operand => operand.spans
  | .more front op sign operand => by
    show (Node.expression (ArcLang.Expr.graft op operand.tree front.tree)).Spans _
    simpa [Chain.tokens] using graft_spans op operand.spans front.tree [sign.1] front.spans

theorem Operand.spans : (e : Operand) → (Node.expression e.tree).Spans e.tokens
  | .unary op sign operand => by
    refine .expression (Operand.starts _).ne_nil (Operand.span_tree _) ?_
    exact (Lays.one operand.spans).behind [sign.1]
  | .trailed e => e.spans

theorem Trailed.spans : (e : Trailed) → (Node.expression e.tree).Spans e.tokens
  | .primary e => e.spans
  | .member target dot name => by
    refine .expression (Trailed.starts _).ne_nil (Trailed.span_tree _) ?_
    exact (Lays.one target.spans).before [dot.1, name.1]
  | .index target opener place closer => by
    refine .expression (Trailed.starts _).ne_nil (Trailed.span_tree _) ?_
    have hparts := (Lays.pair target.spans [opener.1] place.spans).before [closer.1]
    show Lays Spans [.expression target.tree, .expression place.tree] _
    simpa [Trailed.tokens] using hparts
  | .call callee opener arguments closer => by
    refine .expression (Trailed.starts _).ne_nil (Trailed.span_tree _) ?_
    have hparts := ((elements_lays arguments).behind [opener.1]).before [closer.1]
    show Lays Spans (.expression callee.tree :: (elementsTrees arguments).map .expression) _
    simpa [Trailed.tokens] using Lays.part callee.spans hparts

theorem Primary.spans : (e : Primary) → (Node.expression e.tree).Spans e.tokens
  | .number _ => .leaf rfl rfl
  | .char _ => .leaf rfl rfl
  | .string _ => .leaf rfl rfl
  | .boolean _ _ => .leaf rfl rfl
  | .name _ => .leaf rfl rfl
  | .paren opener inner closer => by
    refine .expression (Primary.starts _).ne_nil (Primary.span_tree _) ?_
    exact .inside inner.spans [opener.1] [closer.1]
  | .array opener elements closer => by
    refine .expression (Primary.starts _).ne_nil (Primary.span_tree _) ?_
    exact ((elements_lays elements).behind [opener.1]).before [closer.1]

theorem elements_lays : (es : Elements Expr) →
    Lays Spans ((elementsTrees es).map .expression) (elementsTokens es)
  | .none => .nil
  | .last e => .one e.spans
  | .more e comma rest => .part e.spans (.skip comma.1 (elements_lays rest))

end

/-- Bindings come one after the other, with commas between them. -/
theorem bindings_lays {node : ArcLang.Binding → Node}
    (h : ∀ b : Binding, (node b.tree).Spans b.tokens) (bs : Elements Binding) :
    Lays Spans ((bs.list.map Binding.tree).map node) (bs.tokens Binding.tokens) := by
  induction bs with
  | none => exact .nil
  | last b => exact .one (h b)
  | more b comma rest ih => exact .part (h b) (.skip comma.1 ih)

end Grammar

/-! ## What the rules give -/

namespace Node.Spans

variable {us : List Token}

theorem statement {st : Stmt} (hne : us ≠ []) (hspan : st.span = cover us)
    (hparts : Lays Spans (statementChildren st) us) : (Node.statement st).Spans us :=
  .mk hne hspan hparts

/-- What stands on a first token and others ends where the last of those does. -/
theorem upTo_eq {n : Node} (h : n.Spans us) (front : Token) (gap : List Token) :
    front.span.upTo n.span = cover (front :: gap ++ us) := by
  rw [h.span_eq, List.cons_append, ← List.singleton_append, ← List.append_assoc,
    cover_between (List.cons_ne_nil front []) gap h.ne_nil]
  rfl

end Node.Spans

namespace Parser

open Node (Spans)

variable {α : Type} {env : Setting} {s s' : State}

/-- What the rule gives stands on the tokens that it consumes. -/
def Founded (node : α → Node) (p : Parser α) : Prop :=
  ∀ {env s a s'}, Gives p env s a s' → ∃ ts, s.Consumes ts s' ∧ (node a).Spans ts

theorem ReadsExpr.founded {k : Nat} {p : Parser Expr} (h : ReadsExpr k p) :
    Founded .expression p := by
  intro env s e s' he
  obtain ⟨d, hd, rfl, -⟩ := h he
  exact ⟨d.tokens, hd, d.spans⟩

/-- **Statements are founded** if their expressions and bodies are. -/
theorem statement_founded {expression : Parser Expr} {body : Parser Block}
    (he : Founded .expression expression) (hb : Founded .block body) :
    Founded .statement (statement expression body) := by
  intro env s st s' h
  cases statement_gives h with
  | breakLoop word stop hc | ret word stop hc =>
    exact ⟨_, hc, .statement (List.cons_ne_nil _ _) rfl (.skipped _)⟩
  | retValue word stop hword hvalue hstop =>
    obtain ⟨ts, hts, hes⟩ := he hvalue
    refine ⟨_, hword.trans (hts.trans hstop), .statement (List.cons_ne_nil _ _) ?_
      (.inside hes [word.1] [stop.1])⟩
    exact (Grammar.cover_enclosed word.1 stop.1 ts).symm
  | loop word hword hcondition hinner =>
    obtain ⟨ts, hts, hcs⟩ := he hcondition
    obtain ⟨us, hus, hbs⟩ := hb hinner
    have hparts := Lays.skip word.1 (.part hcs (.one hbs))
    refine ⟨_, hword.trans (hts.trans hus), .statement (List.cons_ne_nil _ _) ?_ hparts⟩
    rw [hus.previousEnd_eq hbs.ne_nil hbs.span_eq]
    exact hbs.upTo_eq word.1 ts
  | branch word hword hcondition hconsequent hc =>
    obtain ⟨ts, hts, hcs⟩ := he hcondition
    obtain ⟨us, hus, hbs⟩ := hb hconsequent
    have hb := hus.before hc
    have hparts := Lays.skip word.1 (.part hcs (.one hbs))
    refine ⟨_, hword.trans (hts.trans hb), .statement (List.cons_ne_nil _ _) ?_ hparts⟩
    rw [hb.previousEnd_eq hbs.ne_nil hbs.span_eq]
    exact hbs.upTo_eq word.1 ts
  | branchElse word other hword hcondition hconsequent hother halternate =>
    obtain ⟨ts, hts, hcs⟩ := he hcondition
    obtain ⟨us, hus, hbs⟩ := hb hconsequent
    obtain ⟨vs, hvs, has⟩ := hb halternate
    have hparts := Lays.skip word.1 (.part hcs (.part hbs (.skip other.1 (.one has))))
    have hspan := has.upTo_eq word.1 (ts ++ us ++ [other.1])
    refine ⟨_, hword.trans (hts.trans (hus.trans (hother.trans hvs))),
      .statement (List.cons_ne_nil _ _) ?_ hparts⟩
    rw [hvs.previousEnd_eq has.ne_nil has.span_eq]
    exact hspan.trans (by simp)
  | expression first stop hs hc hexpr hstop =>
    obtain ⟨ts, hts, hes⟩ := he hexpr
    refine ⟨ts ++ [stop.1], hc.after (hts.trans hstop), .statement (by simp) ?_
      ((Lays.one hes).before _)⟩
    -- the token that the rule began with is the first of the expression
    obtain ⟨u, us, rfl⟩ := List.exists_cons_of_ne_nil hes.ne_nil
    obtain rfl : first = u := hs.eq_of_input (hc.after hts).input
    exact (Grammar.cover_enclosed first stop.1 us).symm

/-- **A repetition with recovery:** its members come from the tokens consumed, in their order; what
was recovered from lies in between. -/
theorem RepeatedRun.lays {node : α → Node} {rule : Parser α} {skip : Parser Unit}
    {resting : Parser Bool} {last : State → Prop} {as : List α}
    (h : RepeatedRun rule skip resting last env s as s') (founded : Founded node rule)
    (hrule : Steady [] rule) (hskip : Steady [] skip) (hresting : Steady [] resting) :
    ∃ ts, s.Consumes ts s' ∧ Lays Spans (as.map node) ts := by
  induction h with
  | done hl _ =>
    obtain ⟨ts, hts⟩ := hl
    exact ⟨ts, hts, .skipped ts⟩
  | kept hc ha _ ih =>
    obtain ⟨ts, hts, hspans⟩ := founded ha
    obtain ⟨us, hus, hlays⟩ := ih
    exact ⟨ts ++ us, hc.after (hts.trans hus), .part hspans hlays⟩
  | skipped hc hx _ ih =>
    -- whatever was consumed belongs to none of the members
    obtain ⟨ts, hts⟩ := (steady_recover hrule hskip hresting).leads hx
    obtain ⟨us, hus, hlays⟩ := ih
    exact ⟨ts ++ us, hc.after (hts.trans hus), hlays.behind ts⟩

theorem body_founded (room : Nat) : Founded .block (body room) := by
  induction room with
  | zero => exact fun h => absurd h not_gives_body_zero
  | succ room ih =>
    intro env s b s' h
    obtain ⟨opener, statements, closer, s₁, s₂, hopener, hrun, hcloser, rfl⟩ := body_gives h
    obtain ⟨ts, hts, hlays⟩ := hrun.lays
      (statement_founded (ReadsExpr.founded (expression_sound room)) ih)
      (steady_statementWithin room) steady_skipStatement (steady_check _)
    refine ⟨opener.1 :: ts ++ [closer.1], hopener.trans (hts.trans hcloser),
      .mk (List.cons_ne_nil _ _) ?_ ((hlays.behind [opener.1]).before [closer.1])⟩
    exact (Grammar.cover_enclosed opener.1 closer.1 ts).symm

/-! ## Definitions and programs -/

theorem item_founded (room : Nat) : Founded .ofItem (item room) := by
  intro env s i s' h
  cases item_gives h with
  | function word hword hf =>
    obtain ⟨name, opener, parameters, closer, result, hfront, -, -, -, -, hinner, hc⟩ :=
      function_gives hf
    obtain ⟨us, hus, hbs⟩ := body_founded room hinner
    have hb := hus.before hc
    -- name, parameters and result type, each behind its sign
    have hparameters := ((Grammar.bindings_lays Grammar.Binding.parameter_spans parameters).behind
      [word.1, name.1, opener.1]).before [closer.1]
    have hresult : Lays Spans ((result.map (·.2.tree)).toList.map .typeName)
        ((result.map fun r => r.1.1 :: r.2.tokens).getD []) := by
      cases result with
      | none => exact .nil
      | some r => exact .skip r.1.1 (.one r.2.spans)
    have hparts := (hparameters.append hresult).append (.one hbs)
    have hspan := hbs.upTo_eq word.1 (name.1 :: opener.1 ::
      (parameters.tokens Grammar.Binding.tokens ++
        closer.1 :: (result.map fun r => r.1.1 :: r.2.tokens).getD []))
    rw [hb.previousEnd_eq hbs.ne_nil hbs.span_eq]
    exact ⟨_, hword.trans (hfront.trans hb), .mk (List.cons_ne_nil _ _) hspan
      (hparts.of_eq (by simp))⟩
  | struct word hword hd =>
    obtain ⟨name, opener, fields, closer, hc, -, -, rfl⟩ := struct_gives hd
    have hparts := ((Grammar.bindings_lays Grammar.Binding.field_spans fields).behind
      [word.1, name.1, opener.1]).before [closer.1]
    have hspan := Grammar.cover_enclosed word.1 closer.1
      (name.1 :: opener.1 :: fields.tokens Grammar.Binding.tokens)
    exact ⟨_, hword.trans hc, .mk (List.cons_ne_nil _ _) hspan.symm (hparts.of_eq (by simp))⟩
  | statement hc hst =>
    obtain ⟨ts, hts, hspans⟩ := statement_founded (ReadsExpr.founded (expression_sound room))
      (body_founded room) hst
    exact ⟨ts, hc.after hts, hspans⟩

/-- **The items of a program come from the tokens that it consumes,** in their order. -/
theorem items_lays {acc : Array Item} (h : Gives (iterate (itemStep env.room) #[]) env s acc s') :
    ∃ ts, s.Consumes ts s' ∧ Lays Spans (acc.toList.map .ofItem) ts :=
  (items_give h).lays (item_founded env.room) (steady_item env.room) steady_skipItem (.pure false)

end Parser

end ArcLang
