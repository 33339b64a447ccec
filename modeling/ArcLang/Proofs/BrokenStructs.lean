import ArcLang.Proofs.BrokenLines
import ArcLang.Proofs.Totality

/-!
# Structs that are broken inside their braces

A struct that fails among its fields is reported once, and the skipping starts there, inside the
braces of the struct. It does not count the brace that is open already, so it need not come to the
brace that closes the struct: it ends at the first semicolon, word that starts a statement, or pair
of braces. The struct is skipped as a whole just if none of these is left of it.

* `Parser.behindItem`: what the skipping between items leaves of the tokens.
* `behindBrace`: what stands behind the brace that closes those that are open.
* `Parser.Level`: rules that consume no brace, and fail at tokens that are none of error.
* `Parser.itemStep_brokenStruct`: the statement.
-/

namespace ArcLang

/-- A brace, of either kind. -/
def Kind.isBrace (k : Kind) : Bool := k = .symbol .leftBrace || k = .symbol .rightBrace

theorem Kind.isBrace_iff {k : Kind} :
    k.isBrace = false ↔ k ≠ .symbol .leftBrace ∧ k ≠ .symbol .rightBrace := by
  simp [isBrace]

/-! ## Braces among tokens -/

/-- What stands behind the brace that closes the outermost of so many open ones, if one does. -/
def behindBrace : Nat → List Token → Option (List Token)
  | _, [] => none
  | opened, t :: ts =>
    if t.kind = .symbol .leftBrace then behindBrace (opened + 1) ts
    else if t.kind = .symbol .rightBrace then
      if opened ≤ 1 then some ts else behindBrace (opened - 1) ts
    else behindBrace opened ts

variable {opened : Nat} {t : Token} {ts us rest : List Token}

theorem behindBrace_other (h : t.kind.isBrace = false) :
    behindBrace opened (t :: ts) = behindBrace opened ts := by
  obtain ⟨hopen, hclose⟩ := Kind.isBrace_iff.1 h
  rw [behindBrace, if_neg hopen, if_neg hclose]

theorem behindBrace_append (h : ∀ t ∈ us, t.kind.isBrace = false) :
    behindBrace opened (us ++ ts) = behindBrace opened ts := by
  induction us with
  | nil => rfl
  | cons u us ih =>
    obtain ⟨hu, hus⟩ := List.forall_mem_cons.1 h
    rw [List.cons_append, behindBrace_other hu, ih hus]

/-- The tokens up to a closing brace are cut off. -/
theorem exists_of_behindBrace (h : behindBrace opened ts = some rest) :
    ∃ inner close, ts = inner ++ close :: rest ∧ close.kind = .symbol .rightBrace := by
  induction ts generalizing opened with
  | nil => cases h
  | cons t ts ih =>
    rw [behindBrace] at h
    have hcons (n : Nat) (h : behindBrace n ts = some rest) :
        ∃ inner close, t :: ts = inner ++ close :: rest ∧ close.kind = .symbol .rightBrace := by
      obtain ⟨inner, close, rfl, hclose⟩ := ih h
      exact ⟨t :: inner, close, rfl, hclose⟩
    split at h
    · exact hcons _ h
    · split at h
      case isTrue hclose =>
        split at h
        · cases h
          exact ⟨[], t, rfl, hclose⟩
        · exact hcons _ h
      case isFalse => exact hcons _ h

theorem length_lt_of_behindBrace (h : behindBrace opened ts = some rest) :
    rest.length < ts.length := by
  obtain ⟨inner, close, rfl, -⟩ := exists_of_behindBrace h
  simp only [List.length_append, List.length_cons]
  omega

/-- Before the outermost brace is closed, the one inside it is. -/
theorem behindBrace_inner (hpos : 0 < opened) (h : behindBrace (opened + 1) ts = some rest) :
    ∃ between, behindBrace opened ts = some between ∧ rest.length < between.length := by
  induction ts generalizing opened with
  | nil => cases h
  | cons t ts ih =>
    rw [behindBrace] at h ⊢
    split at h
    case isTrue hopen =>
      rw [if_pos hopen]
      exact ih (Nat.succ_pos opened) h
    case isFalse hopen =>
      rw [if_neg hopen]
      split at h
      case isTrue hclose =>
        rw [if_pos hclose]
        rw [if_neg (by omega), Nat.add_sub_cancel] at h
        split
        · exact ⟨ts, rfl, length_lt_of_behindBrace h⟩
        · exact ih (by omega) (by rwa [Nat.sub_add_cancel hpos])
      case isFalse hclose =>
        rw [if_neg hclose]
        exact ih hpos h

namespace Parser

/-! ## Skipping among tokens -/

/-- What the skipping between items leaves of the tokens, given the number of braces that the
skipped text has opened. -/
def behindItem : Nat → List Token → List Token
  | _, [] => []
  | opened, t :: ts =>
    if opened = 0 && t.kind.startsStatement then t :: ts
    else match behindSkipped opened t.kind with
      | .done _ => ts
      | .yield opened => behindItem opened ts

/-- Inside braces that were opened on the way, the skipping ends behind the last of them. -/
theorem behindItem_of_pos (hpos : 0 < opened) (h : behindBrace opened ts = some rest) :
    behindItem opened ts = rest := by
  induction ts generalizing opened with
  | nil => cases h
  | cons t ts ih =>
    have hinside : (opened = 0 : Bool) = false := decide_eq_false (by omega)
    rw [behindBrace] at h
    rw [behindItem, behindSkipped, hinside, Bool.false_and, Bool.false_and]
    split at h
    case isTrue hopen => simpa [hopen] using ih (Nat.succ_pos opened) h
    case isFalse hopen =>
      split at h
      case isTrue hclose =>
        split at h
        case isTrue hlast =>
          cases h
          simp [hclose, hlast]
        case isFalse hlast => simpa [hclose, hlast] using ih (by omega) h
      case isFalse hclose => simpa [hopen, hclose] using ih hpos h

/-- **The skipping inside open braces comes to the brace that closes them** just if only ordinary
tokens stand before it. -/
theorem behindItem_eq_iff {inner : List Token} {close : Token}
    (h : behindBrace 1 (inner ++ close :: rest) = some rest)
    (hclose : close.kind = .symbol .rightBrace) :
    behindItem 0 (inner ++ close :: rest) = rest ↔ ∀ t ∈ inner, t.kind.isOrdinary = true := by
  induction inner with
  | nil => simp [behindItem, behindSkipped, hclose, Kind.startsStatement]
  | cons t inner ih =>
    -- what is left where the skipping ends before the brace is longer than what is behind it
    have hshort (left : List Token) (hlt : rest.length < left.length) : left ≠ rest := by
      rintro rfl
      exact hlt.false
    have hlength : rest.length < (inner ++ close :: rest).length := by
      simp only [List.length_append, List.length_cons]
      omega
    rw [List.cons_append] at h ⊢
    rw [List.forall_mem_cons, Kind.isOrdinary_iff, behindItem, behindSkipped]
    cases hstarts : t.kind.startsStatement with
    | true => simpa using hshort (t :: _) (Nat.lt_succ_of_lt hlength)
    | false =>
      by_cases hopen : t.kind = .symbol .leftBrace
      · rw [behindBrace, if_pos hopen] at h
        obtain ⟨between, hbetween, hlt⟩ := behindBrace_inner Nat.one_pos h
        have hleft := behindItem_of_pos Nat.one_pos hbetween
        simpa [hopen, hleft] using hshort _ hlt
      by_cases hbrace : t.kind = .symbol .rightBrace
      · -- the struct would be closed before
        rw [behindBrace, if_neg hopen, if_pos hbrace, if_pos le_rfl] at h
        exact absurd (Option.some.inj h) (hshort _ hlength)
      rw [behindBrace_other (Kind.isBrace_iff.2 ⟨hopen, hbrace⟩)] at h
      by_cases hsemicolon : t.kind = .symbol .semicolon
      · simpa [hopen, hbrace, hsemicolon] using hshort _ hlength
      · simpa [hopen, hbrace, hsemicolon] using ih h

end Parser

/-! ## Rules without braces -/

namespace State

/-- Nothing is wrong with the tokens to come, and the collector has room. -/
structure Plain (s : State) : Prop extends s.Calm where
  proper : ∀ t ∈ s.input, t.isError = false

/-- Tokens have been taken, none of them a brace. -/
def Stays (s s' : State) : Prop := ∃ ts, s.Takes ts s' ∧ ∀ t ∈ ts, t.kind.isBrace = false

variable {s s' s'' : State} {t : Token} {ts : List Token}

theorem Plain.after (h : s.Plain) (ht : s.Takes ts s') : s'.Plain where
  toCalm := ht.calm
  proper t hmem := h.proper t (ht.consumes.input ▸ List.mem_append_right ts hmem)

theorem Plain.proper_of_shows (h : s.Plain) (ht : s.Shows t) : t.isError = false := by
  rcases ht with ht | ⟨-, hend⟩
  · exact h.proper t (List.mem_of_mem_head? ht)
  · rw [← Bool.not_eq_true, Token.isError_iff, Token.isEnd_iff.1 hend]
    decide

theorem Calm.stays (h : s.Calm) : s.Stays s := ⟨[], ⟨.refl s, h, rfl⟩, List.forall_mem_nil _⟩

theorem Stays.trans (h : s.Stays s') (h' : s'.Stays s'') : s.Stays s'' := by
  obtain ⟨ts, ht, hts⟩ := h
  obtain ⟨us, hu, hus⟩ := h'
  exact ⟨ts ++ us, ht.trans hu, List.forall_mem_append.2 ⟨hts, hus⟩⟩

theorem Plain.stays (h : s.Plain) (hs : s.Stays s') : s'.Plain := by
  obtain ⟨ts, ht, -⟩ := hs
  exact h.after ht

end State

namespace Parser

variable {α β : Type} {env : Setting} {s s' : State} {room : Nat}

/-- How a rule may end that consumes no brace and fails at no error token. -/
def EndsLevel (s : State) : EStateM.Result Failure State α → Prop
  | .ok _ s' => s.Stays s'
  | .error (.syntactic _ echo) s' => echo = false ∧ s.Stays s'
  | .error _ _ => True

/-- Where nothing is wrong with the tokens, the rule consumes no brace, and if it fails, it is not
with an echo. -/
def Level (p : Parser α) : Prop := ∀ env s, s.Plain → EndsLevel s (p env s)

/-- Level where this token is the next one. -/
def LevelAt (t : Token) (p : Parser α) : Prop :=
  ∀ env s, s.Plain → s.Shows t → EndsLevel s (p env s)

theorem EndsLevel.after {r : EStateM.Result Failure State α} (h : s.Stays s')
    (hr : EndsLevel s' r) : EndsLevel s r := by
  rcases r with ⟨a, s''⟩ | ⟨⟨why, echo⟩ | why | why, s''⟩
  · exact h.trans hr
  · exact ⟨hr.1, h.trans hr.2⟩
  · trivial
  · trivial

namespace Level

variable {p : Parser α}

theorem pure (a : α) : Level (Pure.pure a) := fun _ _ hs => hs.toCalm.stays

theorem bind {f : α → Parser β} (hp : Level p) (hf : ∀ a, Level (f a)) : Level (p >>= f) := by
  intro env s hs
  have hfirst := hp env s hs
  rw [run_bind]
  cases hrun : p env s with
  | ok a s₁ =>
    rw [hrun] at hfirst
    exact .after hfirst (hf a env s₁ (hs.stays hfirst))
  | error e s₁ =>
    rw [hrun] at hfirst
    cases e <;> exact hfirst

theorem shown (h : Level p) (t : Token) : LevelAt t p := fun env s hs _ => h env s hs

theorem ite {c : Prop} [Decidable c] {q : Parser α} (hp : Level p) (hq : Level q) :
    Level (if c then p else q) := by
  split
  · exact hp
  · exact hq

theorem peek_bind {f : Token → Parser β} (hf : ∀ t, t.isError = false → LevelAt t (f t)) :
    Level (peek >>= f) := by
  intro env s hs
  obtain ⟨t, s₁, hpeek, ht, hshows⟩ := peek_calm hs.toCalm env
  rw [run_bind, hpeek]
  exact .after ⟨[], ht, List.forall_mem_nil _⟩
    (hf t (hs.proper_of_shows hshows) env s₁ (hs.after ht) (ht.consumes.shows hshows))

theorem failAt {t : Token} (h : t.isError = false) (cause : Cause) :
    Level (failAt t cause : Parser α) := fun _ _ hs => ⟨h, hs.toCalm.stays⟩

theorem peek_failAt (c : Token → Cause) :
    Level (do let t ← peek; Parser.failAt t (c t) : Parser α) :=
  peek_bind fun t ht => (failAt ht _).shown t

theorem tooDeep : Level (tooDeep : Parser α) := by
  intro env s hs
  obtain ⟨t, s₁, hpeek, -⟩ := peek_calm hs.toCalm env
  unfold Parser.tooDeep
  rw [run_bind, hpeek]
  trivial

theorem spanFrom (start : Location) : Level (spanFrom start) := by
  intro env s hs
  rw [run_spanFrom]
  cases s.previous with
  | none => trivial
  | some t => exact hs.toCalm.stays

theorem advance_bind {t : Token} {f : Token → Parser β} (hbrace : t.kind.isBrace = false)
    (hend : t.kind ≠ .endOfInput) (hf : Level (f t)) : LevelAt t (advance >>= f) := by
  intro env s hs hshows
  have hend : t.isEnd = false := by
    rwa [← Bool.not_eq_true, Token.isEnd_iff]
  obtain ⟨r, hi⟩ := hshows.input hend
  obtain ⟨s₁, hadvance, ht⟩ := advance_calm hs.toCalm hi env
  rw [run_bind, hadvance]
  exact .after ⟨[t], ht, List.forall_mem_singleton.2 hbrace⟩ (hf env s₁ (hs.after ht))

theorem check (kind : Kind) : Level (check kind) := peek_bind fun _ _ => (pure _).shown _

section Kinds

variable {kind : Kind} (hbrace : kind.isBrace = false) (hend : kind ≠ .endOfInput)

include hbrace hend

theorem accept : Level (accept kind) := by
  unfold Parser.accept
  rw [check_bind]
  refine peek_bind fun t _ => ?_
  by_cases hk : t.kind = kind
  · rw [if_pos (decide_eq_true hk)]
    exact advance_bind (hk ▸ hbrace) (hk ▸ hend) (.pure _)
  · rw [if_neg (by simpa using hk)]
    exact (pure _).shown t

/-- What is expected is consumed, or the rule fails at the token in its place. -/
theorem expected (c : Token → Cause) :
    Level (do if ← Parser.check kind then advance else let t ← peek; Parser.failAt t (c t)) := by
  rw [check_bind]
  refine peek_bind fun t _ => ?_
  by_cases hk : t.kind = kind
  · rw [if_pos (decide_eq_true hk), ← bind_pure advance]
    exact advance_bind (hk ▸ hbrace) (hk ▸ hend) (.pure _)
  · rw [if_neg (by simpa using hk)]
    exact (peek_failAt c).shown t

theorem expect (expected : String) : Level (expect kind expected) := Level.expected hbrace hend _

theorem expectClosing (expected : String) (opener : Token) :
    Level (expectClosing kind expected opener) := Level.expected hbrace hend _

end Kinds

theorem spanned {start : Location} {f : α → Span → β} {p : Parser α} (h : Level p) :
    Level (do
      let a ← p
      return f a (← Parser.spanFrom start)) :=
  h.bind fun _ => (spanFrom _).bind fun _ => .pure _

theorem iterate {step : β → Parser (ForInStep β)} (h : ∀ b, Level (step b)) (b : β) :
    Level (iterate step b) := by
  have hget : Level (get : Parser State) := fun _ _ hs => hs.toCalm.stays
  exact iterate_closed Level pure hget bind h b

end Level

theorem level_arrayLength : Level arrayLength := by
  refine .peek_bind fun t ht => ?_
  split
  next => exact (Level.failAt ht _).shown t
  next hk =>
    split
    next => exact Level.advance_bind (by rw [hk]; rfl) (by rw [hk]; decide) (.pure _)
    next => exact (Level.failAt ht _).shown t
    next => exact fun _ _ _ _ => trivial
  next => exact (Level.failAt ht _).shown t

theorem level_typeNameWith {element : Parser TypeName} (h : Level element) :
    Level (typeNameWith element) := by
  refine .peek_bind fun t ht => ?_
  split
  next hk => exact Level.advance_bind (by rw [hk]; rfl) (by rw [hk]; decide) (.pure _)
  next hk => exact Level.advance_bind (by rw [hk]; rfl) (by rw [hk]; decide) (.pure _)
  next hk => exact Level.advance_bind (by rw [hk]; rfl) (by rw [hk]; rintro ⟨⟩) (.pure _)
  next hk => exact Level.advance_bind (by rw [hk]; rfl) (by rw [hk]; decide) (.pure _)
  next hk =>
    refine Level.advance_bind (by rw [hk]; rfl) (by rw [hk]; decide) (h.bind fun _ => ?_)
    refine (Level.expect rfl (by decide) _).bind fun _ => level_arrayLength.bind fun _ => ?_
    exact .spanned (.expectClosing rfl (by decide) _ _)
  next => exact (Level.failAt ht _).shown t

theorem level_typeName (room : Nat) : Level (typeName room) := by
  induction room with
  | zero => exact level_typeNameWith .tooDeep
  | succ room ih => exact level_typeNameWith ih

theorem level_binding (what : String) (room : Nat) : Level (binding what room) :=
  (Level.expect rfl (by decide) _).bind fun _ => (Level.expect rfl (by decide) _).bind fun _ =>
    .spanned (level_typeName room)

/-- The elements of a list, if none of them has a brace. -/
theorem level_elements {element : Parser α} (h : Level element) (closer : Symbol) :
    Level (iterate (delimitedStep closer element) #[]) :=
  .iterate (fun _ => (Level.check _).bind fun _ => .ite (.pure _) (h.bind fun _ =>
    (Level.accept rfl (by decide)).bind fun _ => .ite (.pure _) (.pure _))) _

/-! ## The failure -/

open State (Plain Stays)

variable {why : Diagnostic} {echo : Bool} {s₁ : State} {t : Token} {r : List Token}

/-- Where the closing symbol is missing, nothing is consumed. -/
theorem expectClosing_fails {kind : Kind} {expected : String} {opener : Token}
    (hend : kind ≠ .endOfInput) (hs : s.Plain)
    (h : expectClosing kind expected opener env s = .error (.syntactic why echo) s') :
    echo = false ∧ s.Stays s' := by
  obtain ⟨s₁, hcheck, ht⟩ := check_calm hs.toCalm kind env
  rcases bind_error h with h | ⟨found, s₂, hfound, h⟩
  · unfold Gives at hcheck
    rw [hcheck] at h
    cases h
  · obtain ⟨rfl, rfl⟩ := hcheck.unique hfound
    split at h
    case isTrue hk =>
      -- what was seen to be there is consumed
      have hinput : s.input ≠ [] := by
        intro hnil
        rw [hnil, firstKind_nil, decide_eq_true_iff] at hk
        exact hend hk.symm
      obtain ⟨t, r, hi⟩ := List.exists_cons_of_ne_nil hinput
      obtain ⟨s₂, hadvance, -⟩ := advance_calm ht.calm (ht.input_eq.trans hi) env
      unfold Gives at hadvance
      rw [hadvance] at h
      cases h
    case isFalse =>
      have hfails : EndsLevel s₁ (.error (.syntactic why echo) s' :
          EStateM.Result Failure State Token) := by
        rw [← h]
        exact Level.peek_failAt _ env s₁ (hs.after ht)
      exact ⟨hfails.1, .trans ⟨[], ht, List.forall_mem_nil _⟩ hfails.2⟩

/-- **A struct that fails inside its braces** fails at a token that is none of error, and before it
comes to another brace. -/
theorem struct_fails {start name opener : Token} (hs : s.Plain)
    (hi : s.input = name :: opener :: r) (hname : name.kind = .identifier)
    (hopener : opener.kind = .symbol .leftBrace)
    (h : struct start room env s = .error (.syntactic why echo) s') :
    echo = false ∧ ∃ front, s.Takes (name :: opener :: front) s' ∧
      ∀ t ∈ front, t.kind.isBrace = false := by
  obtain ⟨s₁, hexpect, ht₁⟩ := expect_calm hs.toCalm hi hname "struct name" env
  obtain ⟨s₂, hopen, ht₂⟩ := expect_calm ht₁.calm (ht₁.input_cons hi) hopener
    (quotedSymbol .leftBrace) env
  have hs₂ : s₂.Plain := (hs.after ht₁).after ht₂
  suffices hfails : echo = false ∧ s₂.Stays s' by
    obtain ⟨hecho, front, ht, hfront⟩ := hfails
    exact ⟨hecho, front, (ht₁.trans ht₂).trans ht, hfront⟩
  unfold Gives at hexpect hopen
  unfold struct at h
  rw [run_bind, hexpect] at h
  dsimp only at h
  rw [run_bind, hopen] at h
  dsimp only at h
  rcases bind_error h with h | ⟨fields, s₃, -, h⟩
  · -- among the fields, or where the brace is missing
    have hfields := level_elements (level_binding "field" room) .rightBrace env s₂ hs₂
    rcases bind_error h with h | ⟨elements, s₃, hgives, h⟩
    · rw [h] at hfields
      exact hfields
    · unfold Gives at hgives
      rw [hgives] at hfields
      rcases bind_error h with h | ⟨close, s₄, -, h⟩
      · obtain ⟨hecho, hstays⟩ := expectClosing_fails (by decide) (hs₂.stays hfields) h
        exact ⟨hecho, hfields.trans hstays⟩
      · cases h
  · -- a span cannot be missing for a reason of syntax
    rcases bind_error h with h | ⟨span, s₄, -, h⟩
    · rw [run_spanFrom] at h
      split at h <;> cases h
    · cases h

/-! ## The skipping -/

/-- A step on the way to the end of an item, where the stream holds no faults. -/
theorem skipItemStep_faultless {opened : Nat} (hs : Scan.faults s.pending = [])
    (hi : s.input = t :: r) (hgo : (opened = 0 && t.kind.startsStatement) = false)
    (env : Setting) : ∃ s', Gives (skipItemStep opened) env s (behindSkipped opened t.kind) s' ∧
      s.Consumes [t] s' ∧ s'.errors = s.errors := by
  obtain ⟨u, s₁, hpeek, -, herrors⟩ := peek_faultless hs env
  obtain ⟨hc, hshows, hahead⟩ := peek_gives hpeek
  obtain rfl := hshows.eq_of_input hi
  have hend : u.isEnd = false := State.not_isEnd_of_mem_input (hi ▸ List.mem_cons_self)
  have hadvance : Gives advance env s₁ u _ := gives_advance hahead hend
  refine ⟨_, gives_bind hpeek ?_, consumes_of_advance hpeek hadvance hend, herrors⟩
  rw [hend, hgo]
  refine gives_bind hadvance ?_
  unfold behindSkipped
  split
  · exact gives_pure _
  · split
    · exact gives_pure _
    · exact gives_pure _

/-- **The skipping leaves just the tokens behind the item,** however many diagnostics there are. -/
theorem iterate_skipItemStep (hs : Scan.faults s.pending = []) (opened : Nat) (env : Setting) :
    ∃ n s', Gives (iterate skipItemStep opened) env s n s' ∧ s.Leads s' ∧
      s'.errors = s.errors ∧ s'.input = behindItem opened s.input := by
  generalize hi : s.input = ts
  induction ts generalizing s opened with
  | nil =>
    obtain ⟨t, s₁, hpeek, -, herrors⟩ := peek_faultless hs env
    obtain ⟨hc, hshows, -⟩ := peek_gives hpeek
    have hstep : Gives (skipItemStep opened) env s (.done opened) s₁ := by
      refine gives_bind hpeek ?_
      rw [if_pos ((isEnd_iff_of_shows hshows).2 hi)]
      exact gives_pure _
    exact ⟨opened, s₁, gives_iterate_done progresses_skipItemStep hstep, ⟨[], hc⟩, herrors,
      hc.input_eq.trans hi⟩
  | cons t ts ih =>
    rw [behindItem]
    cases hstop : (opened = 0 && t.kind.startsStatement : Bool) with
    | true =>
      obtain ⟨u, s₁, hpeek, -, herrors⟩ := peek_faultless hs env
      obtain ⟨hc, hshows, -⟩ := peek_gives hpeek
      obtain rfl := hshows.eq_of_input hi
      have hstep : Gives (skipItemStep opened) env s (.done opened) s₁ := by
        refine gives_bind hpeek ?_
        rw [if_neg (by rw [isEnd_iff_of_shows hshows, hi]; rintro ⟨⟩), if_pos hstop]
        exact gives_pure _
      exact ⟨opened, s₁, gives_iterate_done progresses_skipItemStep hstep, ⟨[], hc⟩, herrors,
        hc.input_eq.trans hi⟩
    | false =>
      obtain ⟨s₁, hstep, hc, herrors⟩ := skipItemStep_faultless hs hi hstop env
      have hi₁ : s₁.input = ts := (List.cons.inj (hi.symm.trans hc.input)).2.symm
      cases hbehind : behindSkipped opened t.kind with
      | done n =>
        rw [hbehind] at hstep
        exact ⟨n, s₁, gives_iterate_done progresses_skipItemStep hstep, ⟨[t], hc⟩, herrors, hi₁⟩
      | yield n =>
        rw [hbehind] at hstep
        obtain ⟨m, s₂, hrest, hl, herrors₂, hi₂⟩ := ih (hc.faultless hs) n hi₁
        exact ⟨m, s₂, gives_iterate_yield progresses_skipItemStep hstep hrest,
          .trans ⟨[t], hc⟩ hl, herrors₂.trans herrors, hi₂⟩

theorem skipItem_faultless (hs : Scan.faults s.pending = []) (env : Setting) :
    ∃ s', Gives skipItem env s () s' ∧ s.Leads s' ∧ s'.errors = s.errors ∧
      s'.input = behindItem 0 s.input := by
  obtain ⟨n, s', hgives, hrest⟩ := iterate_skipItemStep hs 0 env
  exact ⟨s', gives_bind hgives (gives_pure ()), hrest⟩

/-! ## Recovery -/

section Recovery

variable {word name opener : Token} {rest after : List Token}

/-- An item begins with the token that is looked at, whether it was looked at before or not. -/
theorem item_of_peek {s₀ : State} (hpeek : Gives peek env s t s₀) (room : Nat) :
    item room env s₀ = item room env s := by
  obtain ⟨-, -, hahead⟩ := peek_gives hpeek
  have hagain : Gives peek env s₀ t s₀ := gives_peek hahead
  unfold Gives at hpeek hagain
  unfold item
  rw [run_bind, run_bind, hpeek, hagain]

/-- The same of a struct that is read as an item. -/
theorem item_struct_fails (hs : s.Plain) (hi : s.input = word :: name :: opener :: rest)
    (hword : word.kind = .keyword .struct) (hname : name.kind = .identifier)
    (hopener : opener.kind = .symbol .leftBrace)
    (h : item room env s = .error (.syntactic why echo) s₁) :
    echo = false ∧ ∃ front, s.Takes (word :: name :: opener :: front) s₁ ∧
      ∀ t ∈ front, t.kind.isBrace = false := by
  obtain ⟨s₂, s₃, hpeek, hadvance, ht, hi₃⟩ := first_calm hs.toCalm hi env
  unfold Gives at hpeek hadvance
  unfold item at h
  rw [run_bind, hpeek] at h
  dsimp only at h
  rw [hword] at h
  dsimp only at h
  rw [run_bind, hadvance] at h
  have h := map_error h
  obtain ⟨hecho, front, ht₁, hfront⟩ := struct_fails (hs.after ht) hi₃ hname hopener h
  exact ⟨hecho, front, ht.trans ht₁, hfront⟩

/-- **A struct that fails inside its braces is reported once,** and what the skipping leaves of the
tokens from there on comes next. That is what stands behind the struct just if, before its closing
brace, no semicolon, no word that starts a statement and no other brace is left. -/
theorem itemStep_brokenStruct (hs : s.Plain) (hi : s.input = word :: name :: opener :: rest)
    (hword : word.kind = .keyword .struct) (hname : name.kind = .identifier)
    (hopener : opener.kind = .symbol .leftBrace)
    (hfails : item room env s = .error (.syntactic why echo) s₁)
    (hcloses : behindBrace 1 rest = some after) (items : Array Item) :
    ∃ s' inner close, Gives (itemStep room items) env s (.yield items) s' ∧
      s'.errors.errors = s.errors.errors ++ [why] ∧
      s₁.input = inner ++ close :: after ∧ close.kind = .symbol .rightBrace ∧
      s'.input = behindItem 0 s₁.input ∧
      (s'.input = after ↔ ∀ t ∈ inner, t.kind.isOrdinary = true) := by
  obtain ⟨rfl, front, ht, hfront⟩ := item_struct_fails hs hi hword hname hopener hfails
  -- the failure comes before the brace that closes the struct
  obtain rfl : rest = front ++ s₁.input := by simpa using hi.symm.trans ht.consumes.input
  rw [behindBrace_append hfront] at hcloses
  obtain ⟨inner, close, hi₁, hclose⟩ := exists_of_behindBrace hcloses
  let s₂ : State := (s₁.record why).note (.recovering why)
  obtain ⟨s', hskip, ⟨ts, hc⟩, herrors, hi'⟩ :=
    skipItem_faultless (s := s₂) ht.calm.faultless env
  have hleft : s'.input = behindItem 0 s₁.input := hi'
  refine ⟨s', inner, close, ?_, ?_, hi₁, hclose, hleft, ?_⟩
  · obtain ⟨s₀, hpeek, ht₀⟩ := peek_calm_of_input hs.toCalm hi env
    have hend : word.isEnd = false := State.not_isEnd_of_mem_input (hi ▸ List.mem_cons_self)
    have hmoved : s'.consumed ≠ s₀.consumed := by
      have hbefore : s₀.consumed = s.consumed := ht₀.consumes.consumed
      have hfailed : s₂.consumed = s.consumed + (front.length + 3) := ht.consumes.consumed
      have hskipped := hc.consumed
      omega
    have hreport : Gives (report why false) env s₁ () s₂ := rfl
    have hmoveOn : Gives (moveOn s₀.consumed (Pure.pure false)) env s' () s' := by
      unfold Gives
      rw [run_moveOn, if_neg hmoved]
    have hrecover : Gives (recover (item room) skipItem (Pure.pure false)) env s₀ none s' := by
      unfold Gives
      rw [run_recover, item_of_peek hpeek, hfails]
      exact gives_bind hreport (gives_bind hskip (gives_bind hmoveOn (gives_pure none)))
    unfold Gives at hrecover ⊢
    rw [run_itemStep hpeek, hend, ht₀.calm.roomy, if_neg (by decide), run_haltDeep, run_bind,
      hrecover]
    rfl
  · rw [herrors]
    show (s₁.errors.add why).errors = _
    rw [Collector.errors_add, ht.calm.roomy, ht.errors]
    rfl
  · rw [hleft, hi₁]
    exact behindItem_eq_iff (hi₁ ▸ hcloses) hclose

/-- What the skipping between items leaves behind a rule that has failed at a token that is none of
error. -/
def behindFailure : EStateM.Result Failure State α → Option (List Token)
  | .error (.syntactic _ false) s => some (behindItem 0 s.input)
  | _ => none

/-- With a semicolon between its fields, a struct is skipped up to there, and its second field is
taken for an item. -/
theorem itemStep_brokenStruct_semicolon : ∃ why s₁ s',
    item 8 (settingOf "struct S \x7b a: u8; b: u8 \x7d" "m.arc" {})
      (startOf "struct S \x7b a: u8; b: u8 \x7d" "m.arc" 20) = .error (.syntactic why false) s₁ ∧
    Gives (itemStep 8 #[]) (settingOf "struct S \x7b a: u8; b: u8 \x7d" "m.arc" {})
      (startOf "struct S \x7b a: u8; b: u8 \x7d" "m.arc" 20) (.yield #[]) s' ∧
    s'.errors.errors = [why] ∧ s'.input.map (·.lexeme) = ["b", ":", "u8", "\x7d"] := by
  generalize henv : settingOf "struct S \x7b a: u8; b: u8 \x7d" "m.arc" {} = env
  generalize hstart : startOf "struct S \x7b a: u8; b: u8 \x7d" "m.arc" 20 = s
  have hfaults : (Scan.faults s.pending).isEmpty = true := by
    rw [← hstart]
    decide +kernel
  have hproper : s.input.all (fun t => !t.isError) = true := by
    rw [← hstart]
    decide +kernel
  have hkinds : (s.input.take 3).map (·.kind) =
      [.keyword .struct, .identifier, .symbol .leftBrace] := by
    rw [← hstart]
    decide +kernel
  have hcloses : (behindBrace 1 (s.input.drop 3)).map List.length = some 0 := by
    rw [← hstart]
    decide +kernel
  have hfails : (behindFailure (item 8 env s)).map (List.map (·.lexeme)) =
      some ["b", ":", "u8", "\x7d"] := by
    rw [← hstart, ← henv]
    decide +kernel
  have hplain : s.Plain := by
    refine ⟨⟨List.isEmpty_iff.1 hfaults, ?_⟩, ?_⟩
    · rw [← hstart]
      decide +kernel
    · simpa using hproper
  obtain ⟨word, name, opener, rest, hi⟩ : ∃ a b c r, s.input = a :: b :: c :: r := by
    revert hkinds
    rcases s.input with _ | ⟨a, _ | ⟨b, _ | ⟨c, r⟩⟩⟩
    · simp
    · simp
    · simp
    · exact fun _ => ⟨a, b, c, r, rfl⟩
  rw [hi] at hkinds hcloses
  obtain ⟨hword, hname, hopener⟩ : word.kind = .keyword .struct ∧ name.kind = .identifier ∧
      opener.kind = .symbol .leftBrace := by simpa using hkinds
  obtain ⟨after, hafter, -⟩ := Option.map_eq_some_iff.1 hcloses
  have herrors : s.errors.errors = [] := by
    rw [← hstart]
    rfl
  unfold behindFailure at hfails
  split at hfails
  next why s₁ hitem =>
    have hleft := Option.some.inj hfails
    obtain ⟨s', -, -, hstep, hwhy, -, -, hinput, -⟩ :=
      itemStep_brokenStruct hplain hi hword hname hopener hitem hafter #[]
    exact ⟨why, s₁, s', hitem, hstep, by rw [hwhy, herrors, List.nil_append], hinput ▸ hleft⟩
  next => cases hfails

end Recovery

end Parser

end ArcLang
