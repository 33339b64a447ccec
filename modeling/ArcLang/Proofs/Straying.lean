import ArcLang.Proofs.Calm
import ArcLang.Proofs.Passage

/-!
# Where a stream is cut off

An item that is followed by the end of its stream may have looked at that end, or not. Only an `if`
looks behind its last token, whether there is an `else`; the other items settle on a token of
theirs, and it does not matter to them what comes instead of the end.

* `Parser.Settles`: rules that end with the last token they consume.
* `Passage.Alike.at_cut`: what is left of the other stream where the one has ended.
* `Parser.item_strays`: an item that has looked at the end.
-/

namespace ArcLang

/-- The item is an `if` that an `else` may still follow. -/
def Item.isOpen : Item → Bool
  | statement (.branch _ _ _ none) => true
  | _ => false

theorem State.Halted.input_eq_nil {s : State} (h : s.Halted) : s.input = [] := by
  obtain ⟨e, he, hend⟩ := h
  simp [State.input, he, hend]

namespace Parser

/-! ## Rules that look no further -/

/-- Where the rule has succeeded no token is looked at; `still` tells that it may count on that
where it starts. -/
def Settles (still : Bool) (p : Parser α) : Prop :=
  ∀ env s a s', Gives p env s a s' → (still = true → s.ahead = none) → s'.ahead = none

namespace Settles

variable {α β : Type} {still : Bool} {p : Parser α} {room : Nat}

theorem not_halted {env : Setting} {s s' : State} {a : α} (hp : Settles false p)
    (h : Gives p env s a s') : ¬ s'.Halted := by
  rintro ⟨e, he, -⟩
  rw [hp env s a s' h nofun] at he
  cases he

theorem pure (a : α) : Settles true (Pure.pure a) := by
  intro env s b s' h hs
  obtain ⟨rfl, rfl⟩ := pure_gives h
  exact hs rfl

theorem bind {r : α → Parser β} (hp : Settles still p) (hr : ∀ a, Settles true (r a)) :
    Settles still (p >>= r) := by
  intro env s b s' h hs
  obtain ⟨a, s₁, ha, h⟩ := bind_gives h
  exact hr a env s₁ b s' h fun _ => hp env s a s₁ ha hs

/-- It is enough that what comes last settles. -/
theorem last {r : α → Parser β} (hr : ∀ a, Settles false (r a)) : Settles still (p >>= r) := by
  intro env s b s' h _
  obtain ⟨a, s₁, ha, h⟩ := bind_gives h
  exact hr a env s₁ b s' h nofun

theorem map {g : α → β} (hp : Settles still p) : Settles still (g <$> p) := by
  intro env s b s' h hs
  obtain ⟨a, ha, -⟩ := map_gives h
  exact hp env s a s' ha hs

theorem note (e : Event) : Settles true (modify (·.note e) : Parser PUnit) := by
  intro env s a s' h hs
  cases h
  exact hs rfl

/-- A rule that ends by making something of the span it covers. -/
theorem spanned {l : Location} {g : Span → β} :
    Settles true (do return g (← spanFrom l) : Parser β) := by
  intro env s b s' h hs
  obtain ⟨rfl, -⟩ := spanned_gives h
  exact hs rfl

theorem failAt (t : Token) (c : Cause) : Settles still (failAt t c : Parser α) :=
  fun _ _ _ _ h => absurd h not_gives_failAt

theorem tooDeep : Settles still (tooDeep : Parser α) := by
  intro env s a s' h
  obtain ⟨t, s₁, -, h⟩ := bind_gives h
  cases h

/-- A token that is expected is consumed. -/
theorem expected {kind : Kind} (hend : kind ≠ .endOfInput) {cause : Token → Cause} :
    Settles still (do
      if ← check kind then advance else let t ← peek; Parser.failAt t (cause t)) := by
  intro env s t s' h _
  obtain ⟨found, s₁, hfound, h⟩ := bind_gives h
  cases found with
  | false =>
    obtain ⟨u, s₂, -, h⟩ := bind_gives h
    exact absurd h not_gives_failAt
  | true =>
    obtain ⟨hc, hkind⟩ := check_gives hfound
    obtain ⟨hk, -⟩ := advance_checked (hc.input_eq ▸ hkind.1 rfl) hend h
    obtain ⟨u, s₂, hu, h⟩ := bind_gives h
    split at h
    next hlast =>
      obtain ⟨rfl, -⟩ := pure_gives h
      exact absurd (hk.symm.trans (Token.isEnd_iff.1 hlast)) hend
    next =>
      cases h
      rfl

theorem expect {kind : Kind} (hend : kind ≠ .endOfInput) (what : String) :
    Settles still (expect kind what) := expected hend

theorem expectClosing {kind : Kind} (hend : kind ≠ .endOfInput) (what : String) (opener : Token) :
    Settles still (expectClosing kind what opener) := expected hend

end Settles

variable {room : Nat} {still : Bool}

theorem settles_delimited (opener : Token) (closer : Symbol) (element : Parser α) :
    Settles still (delimited opener closer element) :=
  .last fun _ => (Settles.expectClosing (by rintro ⟨⟩) _ _).bind fun _ => .pure _

theorem settles_body : Settles still (body room) := by
  cases room with
  | zero => exact .last fun _ => .tooDeep
  | succ room =>
    refine .last fun _ => .last fun _ => ?_
    exact (Settles.expectClosing (by decide) _ _).bind fun _ => .spanned

theorem settles_function (start : Token) : Settles still (function start room) := by
  refine .last fun name => .last fun opener => .last fun parameters => .last fun found => ?_
  have hrest (result : Option TypeName) : Settles false (do
      let body ← body room
      modify (·.note (.parsedFunction name.lexeme parameters.length))
      return (⟨← spanFrom start.place, name.lexeme, parameters, result, body⟩ : Function)) :=
    settles_body.bind fun _ => (Settles.note _).bind fun _ => .spanned
  dsimp only
  split
  · exact .last hrest
  · exact .last hrest

theorem settles_struct (start : Token) : Settles still (struct start room) :=
  .last fun _ => .last fun _ => (settles_delimited _ _ _).bind fun _ => .spanned

section Statements

variable {expression : Parser Expr}

theorem settles_loop (start : Token) : Settles still (loop start expression (body room)) :=
  .last fun _ => settles_body.bind fun _ => .spanned

theorem settles_ret (start : Token) : Settles still (ret start expression) := by
  refine .last fun t => ?_
  have hrest (value : Option Expr) : Settles false (do
      let _ ← expect (.symbol .semicolon) "';' after return"
      return Stmt.ret (← spanFrom start.place) value) :=
    (Settles.expect (by decide) _).bind fun _ => .spanned
  split
  · exact .last hrest
  · exact .last hrest

theorem settles_breakLoop (start : Token) : Settles still (breakLoop start) :=
  (Settles.expect (by decide) _).bind fun _ => .spanned

/-- Behind an `else` the statement settles. -/
theorem settles_alternate (start : Token) (condition : Expr) (consequent : Block) :
    Settles still (do
      let t ← peek
      if t.kind = .keyword .ifWord then
        failAt t (.missingToken "'\x7b' after 'else'"
          (some "there is no 'else if'; nest the 'if' inside an 'else' body"))
      else
        let alternate ← body room
        return .branch (← spanFrom start.place) condition consequent (some alternate) :
          Parser Stmt) := by
  refine .last fun t => ?_
  split
  · exact .failAt _ _
  · exact settles_body.bind fun _ => .spanned

end Statements

/-! ## Items that look further -/

section Strays

open Passage (Ends)

variable {P : Passage} {s z s' : State} {α β : Type} {v : α → β}

/-- Rules that end before the stream is cut off end alike. -/
theorem gives_of_ends {p : Parser α} {q : Parser β} {a : α} (h : Gives p P.env s a s')
    (hends : P.Ends v (p P.env s) (q P.env' z)) (hs' : ¬ s'.Halted) :
    ∃ z', Gives q P.env' z (v a) z' ∧ P.Alike s' z' := by
  unfold Gives at h ⊢
  rw [h] at hends
  generalize q P.env' z = y at hends
  cases hends with
  | ok hv halike => exact ⟨_, hv ▸ rfl, halike⟩
  | strays hstrays => exact absurd hstrays.2 hs'

/-- An `if` that looks at the end has no alternate. It looks at what comes instead of the end in the
other stream, and if that is no `else` it is the same `if` there. -/
theorem branch_strays {room : Nat} {start : Token} {st : Stmt} (hs : P.Alike s z)
    (hfed : s.previous ≠ none)
    (h : Gives (branch start (expression room) (body room)) P.env s st s') (hs' : s'.Halted) :
    ∃ span c b s₁ z₁, st = .branch span c b none ∧ P.Alike s₁ z₁ ∧ s₁.Consumes [] s' ∧
      ∀ t z', Gives peek P.env' z₁ t z' → t.kind ≠ .keyword .elseWord →
        Gives (branch (start.moved P.move) (expression room) (body room)) P.env' z
          (st.moved P.move) z' := by
  obtain ⟨c, s₂, hc, h⟩ := bind_gives h
  obtain ⟨b, s₃, hb, h⟩ := bind_gives h
  have hsettled : ¬ s₃.Halted := settles_body.not_halted hb
  have hsteady : Steady [] (expression room) := steady_expression room
  have hsteady' : Steady [] (body room) := steady_body room
  have hleads : s₂.Leads s₃ := hsteady'.leads hb
  obtain ⟨z₂, hc', halike₂⟩ := gives_of_ends hc (parallel_expression.follows hs
    ⟨List.forall_mem_nil _, Known.at_nothing s, nofun⟩)
    fun hhalted => hsettled (hhalted.leads hleads)
  obtain ⟨z₃, hb', halike₃⟩ := gives_of_ends hb ((parallel_body rfl).follows halike₂
    ⟨List.forall_mem_nil _, Known.at_nothing s₂, nofun⟩) hsettled
  obtain ⟨found, s₄, hfound, h⟩ := bind_gives h
  cases found with
  | true => exact absurd hs' ((settles_alternate start c b).not_halted h)
  | false =>
    obtain ⟨found, s₅, hcheck, hfound⟩ := bind_gives hfound
    cases found with
    | true =>
      obtain ⟨u, s₆, -, hfound⟩ := bind_gives hfound
      cases hfound
    | false =>
      obtain ⟨-, rfl⟩ := pure_gives hfound
      obtain ⟨t, s₆, hpeek, hcheck⟩ := bind_gives hcheck
      obtain ⟨-, rfl⟩ := pure_gives hcheck
      obtain ⟨rfl, rfl⟩ := spanned_gives h
      obtain ⟨hsame, -, -⟩ := peek_gives hpeek
      refine ⟨_, c, b, s₃, z₃, rfl, halike₃, hsame, fun t' z' hpeek' helse => ?_⟩
      have hfed₃ : s₃.previous ≠ none :=
        State.Leads.previous_ne_none ((hsteady.leads hc).trans hleads) hfed
      obtain ⟨u, hu⟩ := Option.ne_none_iff_exists'.1 hfed₃
      have hends : s₆.EndsAt u.span.stop := by
        unfold State.EndsAt
        rw [hsame.previous, List.getLast?_nil, Option.none_or, hu]
        rfl
      have hends' : z'.EndsAt (P.move u.span.stop) := by
        unfold State.EndsAt
        rw [(peek_gives hpeek').1.previous, List.getLast?_nil, Option.none_or,
          halike₃.previous u hu]
        rfl
      have hcheck' : Gives (check (.keyword .elseWord)) P.env' z₃ false z' :=
        gives_bind hpeek' (by rw [decide_eq_false helse]; exact gives_pure false)
      rw [hends.previousEnd]
      exact gives_bind hc' (gives_bind hb' (gives_bind (gives_bind hcheck' (gives_pure false))
        (gives_spanned hends')))

/-- Everything but an `if` settles on its last token. -/
theorem item_strays {room : Nat} {i : Item} (hs : P.Alike s z)
    (h : Gives (item room) P.env s i s') (hs' : s'.Halted) :
    i.isOpen = true ∧ ∃ s₁ z₁, P.Alike s₁ z₁ ∧ s₁.Consumes [] s' ∧
      ∀ t z', Gives peek P.env' z₁ t z' → t.kind ≠ .keyword .elseWord →
        Gives (item room) P.env' z (i.moved P.move) z' := by
  obtain ⟨t, s₁, hpeek, h⟩ := bind_gives h
  obtain ⟨-, -, hahead⟩ := peek_gives hpeek
  split at h
  · obtain ⟨u, s₂, -, h⟩ := bind_gives h
    exact absurd hs' ((settles_function u).map.not_halted h)
  · obtain ⟨u, s₂, -, h⟩ := bind_gives h
    exact absurd hs' ((settles_struct u).map.not_halted h)
  next hfunction hstruct =>
    obtain ⟨st, hst, rfl⟩ := map_gives h
    obtain ⟨t', s₁', hpeek', hst⟩ := bind_gives hst
    obtain ⟨rfl, rfl⟩ := (gives_peek hahead).unique hpeek'
    split at hst
    next hk =>
      have hend : t.isEnd = false := isEnd_of_kind hk (by decide)
      obtain ⟨u, s₂, hadvance, hst⟩ := bind_gives hst
      obtain ⟨rfl, rfl⟩ := (gives_advance hahead hend).unique hadvance
      rcases hs.peek with ⟨u, s₂, z₀, hlook, hlook', halike, -⟩ | ⟨-, u, s₂, hlook, hlast⟩
      · obtain ⟨rfl, rfl⟩ := hpeek.unique hlook
        obtain ⟨hahead', htaken⟩ := halike.take hahead hend
        obtain ⟨span, c, b, s₃, z₃, rfl, halike₃, hsame, hbranch⟩ :=
          branch_strays htaken (Option.some_ne_none t) hst hs'
        refine ⟨rfl, s₃, z₃, halike₃, hsame, fun t' z' hnext helse => gives_bind hlook' ?_⟩
        rw [Token.kind_moved, hk]
        refine gives_map _ (gives_bind (gives_peek hahead') ?_)
        rw [Token.kind_moved, hk]
        exact gives_bind (gives_advance hahead' hend) (hbranch t' z' hnext helse)
      · obtain ⟨rfl, -⟩ := hpeek.unique hlook
        rw [hend] at hlast
        cases hlast
    next =>
      obtain ⟨u, s₂, -, hst⟩ := bind_gives hst
      exact absurd hs' ((settles_loop u).not_halted hst)
    next =>
      obtain ⟨u, s₂, -, hst⟩ := bind_gives hst
      exact absurd hs' ((settles_ret u).not_halted hst)
    next =>
      obtain ⟨u, s₂, -, hst⟩ := bind_gives hst
      exact absurd hs' ((settles_breakLoop u).not_halted hst)
    next =>
      obtain ⟨e, s₂, -, hst⟩ := bind_gives hst
      exact absurd hs' (((Settles.expect (by decide) _).bind fun _ => .spanned).not_halted hst)

end Strays

end Parser

end ArcLang
