import DirDigest.Cancellation
import DirDigest.Lookup
import Mathlib.Logic.Function.Basic

/-! # Families of tokens

A history is a list of operations, the latest one first. Every token belongs to the family of the
creation that it comes from by copies; a family is told by the number of operations before that
creation.

* `Tokens.after?`: the tokens after a history.
* `family?`, `Cancelled`: the family of a token, and whether a family was cancelled, told by the
  history alone.
* `Tracks`: flags stand for families; `tracks_step` and `tracks_after` keep this.
* `tokens_families`: a token is cancelled exactly if its family was, for good.
-/

set_option autoImplicit false

namespace DirDigest

/-! ## Histories -/

/-- The token that an operation needs. -/
def TokenStep.needed? : TokenStep → Option String
  | .create _ => none
  | .copy _ source => some source
  | .drop name | .cancel name | .report name _ | .check name => some name

/-- The name that an operation binds to another token, or to none. -/
def TokenStep.rebound? : TokenStep → Option String
  | .create name | .copy name _ | .drop name => some name
  | .cancel _ | .report _ _ | .check _ => none

/-- The family of the token under a name after a history; none if there is no such token. -/
def family? : List TokenStep → String → Option Nat
  | [], _ => none
  | .create name :: past, other => if other = name then some past.length else family? past other
  | .copy name source :: past, other =>
    if other = name then family? past source else family? past other
  | .drop name :: past, other => if other = name then none else family? past other
  | .cancel _ :: past, other | .report _ _ :: past, other | .check _ :: past, other =>
    family? past other

/-- Whether a token that was of a family at that time was cancelled. -/
def Cancelled (past : List TokenStep) (family : Nat) : Prop :=
  ∃ later name before, past = later ++ .cancel name :: before ∧ family? before name = some family

/-- The tokens after a history, as long as each operation finds the token that it needs. -/
def Tokens.after? : List TokenStep → Option Tokens
  | [] => some {}
  | step :: past => (Tokens.after? past).bind fun t => t.step step

section Histories
variable {past : List TokenStep} {step : TokenStep} {name other : String} {family : Nat}

theorem family?_lt (h : family? past name = some family) : family < past.length := by
  induction past generalizing name with
  | nil => cases h
  | cons step past ih =>
    rw [List.length_cons]
    have hpast : ∀ {other : String}, family? past other = some family → family < past.length + 1 :=
      fun ho => Nat.lt_succ_of_lt (ih ho)
    cases step with
    | create bound =>
      rw [family?] at h
      split at h
      · exact Option.some.inj h ▸ Nat.lt_succ_self _
      · exact hpast h
    | copy bound source =>
      rw [family?] at h
      split at h
      · exact hpast h
      · exact hpast h
    | drop bound =>
      rw [family?] at h
      split at h
      · cases h
      · exact hpast h
    | cancel bound => exact hpast h
    | report bound path => exact hpast h
    | check bound => exact hpast h

theorem cancelled_cons : Cancelled (step :: past) family ↔
    (∃ name, step = .cancel name ∧ family? past name = some family) ∨ Cancelled past family := by
  constructor
  · rintro ⟨later, name, before, heq, hf⟩
    cases later with
    | nil =>
      obtain ⟨rfl, rfl⟩ := List.cons.inj heq
      exact .inl ⟨name, rfl, hf⟩
    | cons first later =>
      obtain ⟨rfl, rfl⟩ := List.cons.inj heq
      exact .inr ⟨later, name, before, rfl, hf⟩
  · rintro (⟨name, rfl, hf⟩ | ⟨later, name, before, rfl, hf⟩)
    · exact ⟨[], name, past, rfl, hf⟩
    · exact ⟨step :: later, name, before, rfl, hf⟩

theorem Cancelled.later (h : Cancelled past family) (later : List TokenStep) :
    Cancelled (later ++ past) family := by
  obtain ⟨middle, name, before, rfl, hf⟩ := h
  exact ⟨later ++ middle, name, before, (List.append_assoc ..).symm, hf⟩

/-- Only families that have been created are cancelled. -/
theorem Cancelled.lt (h : Cancelled past family) : family < past.length := by
  obtain ⟨later, name, before, rfl, hf⟩ := h
  have hbefore := family?_lt hf
  rw [List.length_append, List.length_cons]
  omega

theorem not_cancelled_nil : ¬Cancelled [] family := fun h => Nat.not_lt_zero _ h.lt

theorem family?_kept (h : step.rebound? ≠ some other) :
    family? (step :: past) other = family? past other := by
  cases step with
  | create name => exact if_neg fun ho => h (congrArg some ho.symm)
  | copy name source => exact if_neg fun ho => h (congrArg some ho.symm)
  | drop name => exact if_neg fun ho => h (congrArg some ho.symm)
  | cancel name => rfl
  | report name path => rfl
  | check name => rfl

end Histories

/-! ## Names -/

section Names
variable {t : Tokens} {name other : String}

theorem lookup_forget (t : Tokens) (name other : String) :
    (t.forget name).lookup other = if other = name then none else t.flag? other :=
  lookup_filter_ne t.owners name other

theorem lookup_bind (t : Tokens) (name other : String) (flag : Nat) :
    ((name, flag) :: t.forget name).lookup other =
      if other = name then some flag else t.flag? other := by
  rw [lookup_entry, lookup_forget]
  by_cases ho : other = name
  · rw [if_pos ho, if_pos ho]
  · rw [if_neg ho, if_neg ho, if_neg ho]

theorem forget_names (h : (t.owners.map Prod.fst).Nodup) (name : String) :
    ((t.forget name).map Prod.fst).Nodup ∧ name ∉ (t.forget name).map Prod.fst := by
  refine ⟨h.sublist (List.filter_sublist.map Prod.fst), ?_⟩
  simp [Tokens.forget]

end Names

/-! ## Flags stand for families -/

/-- Whether the flags of some tokens stand for the families of a history; `birth` gives the family of
a flag. -/
structure Tracks (t : Tokens) (past : List TokenStep) (birth : Nat → Nat) : Prop where
  family : ∀ name, family? past name = (t.flag? name).map birth
  used : ∀ name flag, t.flag? name = some flag → flag < t.next
  born : ∀ flag, flag < t.next → birth flag < past.length
  distinct : ∀ first second, first < t.next → second < t.next → birth first = birth second →
    first = second
  raised : ∀ flag, flag ∈ t.raised ↔ flag < t.next ∧ Cancelled past (birth flag)
  names : (t.owners.map Prod.fst).Nodup

section Tracks
variable {t t' : Tokens} {past : List TokenStep} {birth : Nat → Nat} {step : TokenStep}

theorem tracks_create (h : Tracks t past birth) (name : String) :
    Tracks { t with owners := (name, t.next) :: t.forget name, next := t.next + 1 }
      (.create name :: past) (Function.update birth t.next past.length) := by
  have hold : ∀ flag, flag < t.next →
      Function.update birth t.next past.length flag = birth flag :=
    fun flag hf => Function.update_of_ne (Nat.ne_of_lt hf) _ _
  have hcancelled : ∀ family, Cancelled (.create name :: past) family ↔ Cancelled past family :=
    fun family => by simp [cancelled_cons]
  constructor
  · intro other
    rw [family?, Tokens.flag?, lookup_bind]
    by_cases ho : other = name
    · rw [if_pos ho, if_pos ho, Option.map_some, Function.update_self]
    · rw [if_neg ho, if_neg ho, h.family other]
      refine Option.map_congr fun flag hflag => (hold flag (h.used other flag hflag)).symm
  · intro other flag hflag
    rw [Tokens.flag?, lookup_bind] at hflag
    split at hflag
    · exact Option.some.inj hflag ▸ Nat.lt_succ_self _
    · exact Nat.lt_succ_of_lt (h.used other flag hflag)
  · intro flag hflag
    rcases Nat.lt_succ_iff_lt_or_eq.1 hflag with hlt | rfl
    · rw [hold flag hlt]
      exact Nat.lt_succ_of_lt (h.born flag hlt)
    · rw [Function.update_self]
      exact Nat.lt_succ_self _
  · -- the new family is told from the earlier ones by its birth, which is the latest
    intro first second hfirst hsecond heq
    rcases Nat.lt_succ_iff_lt_or_eq.1 hfirst with hf | rfl
    · rcases Nat.lt_succ_iff_lt_or_eq.1 hsecond with hs | rfl
      · rw [hold first hf, hold second hs] at heq
        exact h.distinct first second hf hs heq
      · rw [hold first hf, Function.update_self] at heq
        exact absurd (h.born first hf) (heq ▸ Nat.lt_irrefl _)
    · rcases Nat.lt_succ_iff_lt_or_eq.1 hsecond with hs | rfl
      · rw [hold second hs, Function.update_self] at heq
        exact absurd (h.born second hs) (heq ▸ Nat.lt_irrefl _)
      · rfl
  · intro flag
    rw [hcancelled, h.raised flag]
    constructor
    · rintro ⟨hf, hc⟩
      exact ⟨Nat.lt_succ_of_lt hf, by rwa [hold flag hf]⟩
    · rintro ⟨hf, hc⟩
      rcases Nat.lt_succ_iff_lt_or_eq.1 hf with hf | rfl
      · exact ⟨hf, by rwa [hold flag hf] at hc⟩
      · rw [Function.update_self] at hc
        exact absurd hc.lt (Nat.lt_irrefl _)
  · obtain ⟨hnodup, hfresh⟩ := forget_names h.names name
    exact List.nodup_cons.2 ⟨hfresh, hnodup⟩

/-- What an operation that creates and cancels nothing keeps. -/
theorem Tracks.keeps (h : Tracks t past birth)
    (hcancelled : ∀ family, Cancelled (step :: past) family ↔ Cancelled past family)
    {owners : List (String × Nat)}
    (hfamily : ∀ name, family? (step :: past) name = (owners.lookup name).map birth)
    (hused : ∀ name flag, owners.lookup name = some flag → flag < t.next)
    (hnames : (owners.map Prod.fst).Nodup) :
    Tracks { t with owners := owners } (step :: past) birth := by
  refine ⟨hfamily, hused, fun flag hf => Nat.lt_succ_of_lt (h.born flag hf), h.distinct,
    fun flag => ?_, hnames⟩
  rw [h.raised flag, hcancelled]

theorem tracks_copy (h : Tracks t past birth) {name source : String} {flag : Nat}
    (hflag : t.flag? source = some flag) :
    Tracks { t with owners := (name, flag) :: t.forget name } (.copy name source :: past) birth := by
  obtain ⟨hnodup, hfresh⟩ := forget_names h.names name
  refine h.keeps (fun family => by simp [cancelled_cons]) (fun other => ?_) (fun other f hf => ?_)
    (List.nodup_cons.2 ⟨hfresh, hnodup⟩)
  · rw [family?, lookup_bind]
    by_cases ho : other = name
    · rw [if_pos ho, if_pos ho, h.family source, hflag]
    · rw [if_neg ho, if_neg ho, h.family other]
  · rw [lookup_bind] at hf
    split at hf
    · exact Option.some.inj hf ▸ h.used source flag hflag
    · exact h.used other f hf

theorem tracks_drop (h : Tracks t past birth) (name : String) :
    Tracks { t with owners := t.forget name } (.drop name :: past) birth := by
  refine h.keeps (fun family => by simp [cancelled_cons]) (fun other => ?_) (fun other f hf => ?_)
    (forget_names h.names name).1
  · rw [family?, lookup_forget]
    by_cases ho : other = name
    · rw [if_pos ho, if_pos ho, Option.map_none]
    · rw [if_neg ho, if_neg ho, h.family other]
  · rw [lookup_forget] at hf
    split at hf
    · cases hf
    · exact h.used other f hf

theorem tracks_cancel (h : Tracks t past birth) {name : String} {flag : Nat}
    (hflag : t.flag? name = some flag) :
    Tracks { t with raised := flag :: t.raised } (.cancel name :: past) birth := by
  have hused := h.used name flag hflag
  have hfamily : family? past name = some (birth flag) := by rw [h.family name, hflag, Option.map_some]
  refine ⟨h.family, h.used, fun other hf => Nat.lt_succ_of_lt (h.born other hf), h.distinct,
    fun other => ?_, h.names⟩
  rw [List.mem_cons, h.raised other, cancelled_cons]
  constructor
  · rintro (rfl | ⟨hlt, hc⟩)
    · exact ⟨hused, .inl ⟨name, rfl, hfamily⟩⟩
    · exact ⟨hlt, .inr hc⟩
  · -- a family that is cancelled now has only one flag, which is the raised one
    rintro ⟨hlt, ⟨cancelled, heq, hf⟩ | hc⟩
    · obtain rfl := TokenStep.cancel.inj heq
      exact .inl (h.distinct other flag hlt hused (Option.some.inj (hf.symm.trans hfamily)))
    · exact .inr ⟨hlt, hc⟩

theorem tracks_step (h : Tracks t past birth) (hs : t.step step = some t') :
    ∃ birth', Tracks t' (step :: past) birth' := by
  cases step with
  | create name =>
    obtain rfl := Option.some.inj hs
    exact ⟨_, tracks_create h name⟩
  | copy name source =>
    obtain ⟨flag, hflag, rfl⟩ := Option.map_eq_some_iff.1 hs
    exact ⟨birth, tracks_copy h hflag⟩
  | drop name =>
    obtain ⟨flag, -, rfl⟩ := Option.map_eq_some_iff.1 hs
    exact ⟨birth, tracks_drop h name⟩
  | cancel name =>
    obtain ⟨flag, hflag, rfl⟩ := Option.map_eq_some_iff.1 hs
    exact ⟨birth, tracks_cancel h hflag⟩
  | report name path =>
    obtain ⟨flag, -, rfl⟩ := Option.map_eq_some_iff.1 hs
    exact ⟨birth, h.keeps (fun family => by simp [cancelled_cons]) h.family h.used h.names⟩
  | check name =>
    obtain ⟨flag, -, rfl⟩ := Option.map_eq_some_iff.1 hs
    exact ⟨birth, h.keeps (fun family => by simp [cancelled_cons]) h.family h.used h.names⟩

theorem tracks_after (h : Tokens.after? past = some t) : ∃ birth, Tracks t past birth := by
  induction past generalizing t with
  | nil =>
    obtain rfl := Option.some.inj h
    exact ⟨id, ⟨fun name => rfl, nofun, nofun, nofun, by simp, List.nodup_nil⟩⟩
  | cons step past ih =>
    obtain ⟨before, hbefore, hs⟩ := Option.bind_eq_some_iff.1 h
    obtain ⟨birth, htracks⟩ := ih hbefore
    exact tracks_step htracks hs

/-! ## What tokens show -/

/-- Whether a token shows that it is cancelled exactly under a condition: its state does, a check of
it fails, and so does a check of its sink. -/
structure Shows (t : Tokens) (name : String) (condition : Prop) : Prop where
  state : ∃ cancelled, t.isCancelled? name = some cancelled ∧ (cancelled = true ↔ condition)
  fails : t.check? name = some (.error .cancelled) ↔ condition
  passes : t.check? name = some (.ok ()) ↔ ¬condition
  sink : ∃ sink, t.sink? name = some sink ∧ ((sink.check ()).1 = false ↔ condition)

theorem shows_of_state {name : String} {condition : Prop} {cancelled : Bool}
    (hstate : t.isCancelled? name = some cancelled) (h : cancelled = true ↔ condition) :
    Shows t name condition := by
  refine ⟨⟨cancelled, hstate, h⟩, ?_, ?_, ?_⟩
  · rw [Tokens.check?, hstate, ← h]
    cases cancelled <;> simp
  · rw [Tokens.check?, hstate, ← h]
    cases cancelled <;> simp
  · refine ⟨.ofFlag cancelled, by rw [Tokens.sink?, hstate, Option.map_some], ?_⟩
    rw [StatusSink.ofFlag, ← h]
    cases cancelled <;> simp

theorem isCancelled?_eq {name : String} {flag : Nat} (hflag : t.flag? name = some flag) :
    t.isCancelled? name = some (t.isRaised flag) := by
  rw [Tokens.isCancelled?, hflag, Option.map_some]

theorem Tracks.shows (h : Tracks t past birth) {name : String} {family : Nat}
    (hf : family? past name = some family) : Shows t name (Cancelled past family) := by
  rw [h.family name] at hf
  obtain ⟨flag, hflag, rfl⟩ := Option.map_eq_some_iff.1 hf
  refine shows_of_state (isCancelled?_eq hflag) ?_
  have hraised := h.raised flag
  simpa [Tokens.isRaised, h.used name flag hflag] using hraised

theorem Tracks.live (h : Tracks t past birth) (name : String) :
    (∃ cancelled, t.isCancelled? name = some cancelled) ↔
      ∃ family, family? past name = some family := by
  rw [h.family name, Tokens.isCancelled?]
  cases t.flag? name <;> simp

/-- An operation can be performed exactly if the token that it needs is there. -/
theorem Tracks.performs (h : Tracks t past birth) (step : TokenStep) :
    (∃ t', t.step step = some t') ↔
      ∀ name, step.needed? = some name → ∃ family, family? past name = some family := by
  have hneeds : ∀ (name : String) (next : Nat → Tokens),
      (∃ t', (t.flag? name).map next = some t') ↔
        ∀ other, some name = some other → ∃ family, family? past other = some family := by
    intro name next
    have hlive : (∃ t', (t.flag? name).map next = some t') ↔
        ∃ family, family? past name = some family := by
      rw [h.family name]
      cases t.flag? name <;> simp
    rw [hlive]
    exact ⟨fun hs other ho => Option.some.inj ho ▸ hs, fun hs => hs name rfl⟩
  cases step with
  | create name => exact iff_of_true ⟨_, rfl⟩ nofun
  | copy name source => exact hneeds source _
  | drop name => exact hneeds name _
  | cancel name => exact hneeds name _
  | report name path => exact hneeds name _
  | check name => exact hneeds name _

theorem mem_live (h : Tracks t past birth) {name : String} {cancelled : Bool} :
    (name, cancelled) ∈ t.live ↔ t.isCancelled? name = some cancelled := by
  have hentry : ∀ flag, (name, flag) ∈ t.owners ↔ t.flag? name = some flag := by
    intro flag
    rw [Tokens.flag?]
    exact ⟨lookup_of_mem h.names, mem_of_lookup⟩
  simp only [Tokens.live, Tokens.isCancelled?, List.mem_map, Prod.exists, Prod.mk.injEq,
    Option.map_eq_some_iff, ← hentry]
  constructor
  · rintro ⟨other, flag, hmem, rfl, hcancelled⟩
    exact ⟨flag, hmem, hcancelled⟩
  · rintro ⟨flag, hmem, hcancelled⟩
    exact ⟨name, flag, hmem, rfl, hcancelled⟩

theorem live_names (h : Tracks t past birth) : (t.live.map Prod.fst).Nodup := by
  rw [Tokens.live, List.map_map]
  exact h.names

/-- A token that is not bound anew keeps its state, unless its own family is cancelled. -/
theorem tracks_others (h : Tracks t past birth) (hs : t.step step = some t') {name : String}
    {family : Nat} (hf : family? past name = some family) (hr : step.rebound? ≠ some name)
    (hc : ∀ cancelled, step = .cancel cancelled → family? past cancelled ≠ some family) :
    t'.isCancelled? name = t.isCancelled? name := by
  obtain ⟨birth', h'⟩ := tracks_step h hs
  have hsame : Cancelled (step :: past) family ↔ Cancelled past family := by
    rw [cancelled_cons]
    refine or_iff_right ?_
    rintro ⟨cancelled, heq, hfamily⟩
    exact hc cancelled heq hfamily
  obtain ⟨before, hbefore, hiff⟩ := (h.shows hf).state
  obtain ⟨after, hafter, hiff'⟩ := (h'.shows ((family?_kept hr).trans hf)).state
  rw [hbefore, hafter, Bool.eq_iff_iff.2 (hiff'.trans (hsame.trans hiff.symm))]

end Tracks

/-- After every operation of every history each token shows that it is cancelled exactly if its
family was cancelled before, whatever became of the token that was cancelled then. A family stays
cancelled, and an operation leaves the tokens of other families as they are. -/
theorem tokens_families {past : List TokenStep} {t : Tokens} (h : Tokens.after? past = some t) :
    (t.live.map Prod.fst).Nodup ∧
    (∀ name cancelled, (name, cancelled) ∈ t.live ↔ t.isCancelled? name = some cancelled) ∧
    (∀ name, (∃ cancelled, t.isCancelled? name = some cancelled) ↔
      ∃ family, family? past name = some family) ∧
    (∀ name family, family? past name = some family → Shows t name (Cancelled past family)) ∧
    (∀ name family, family? past name = some family → t.isCancelled? name = some true →
      ∀ later t' other, Tokens.after? (later ++ past) = some t' →
        family? (later ++ past) other = some family → t'.isCancelled? other = some true) ∧
    ∀ step : TokenStep,
      ((∃ t', t.step step = some t') ↔
        ∀ name, step.needed? = some name → ∃ family, family? past name = some family) ∧
      ∀ t', t.step step = some t' → ∀ name family, family? past name = some family →
        step.rebound? ≠ some name →
        family? (step :: past) name = some family ∧
        ((∀ cancelled, step = .cancel cancelled → family? past cancelled ≠ some family) →
          t'.isCancelled? name = t.isCancelled? name) := by
  obtain ⟨birth, htracks⟩ := tracks_after h
  refine ⟨live_names htracks, fun name cancelled => mem_live htracks, htracks.live,
    fun name family => htracks.shows, ?_, fun step => ⟨htracks.performs step, ?_⟩⟩
  · intro name family hf hcancelled later t' other hlater hother
    obtain ⟨birth', htracks'⟩ := tracks_after hlater
    obtain ⟨state, hstate, hiff⟩ := (htracks.shows hf).state
    rw [hcancelled] at hstate
    have hbefore := hiff.1 (Option.some.inj hstate).symm
    obtain ⟨state', hstate', hiff'⟩ := (htracks'.shows hother).state
    rw [hstate', hiff'.2 (hbefore.later later)]
  · intro t' hs name family hf hr
    exact ⟨(family?_kept hr).trans hf, tracks_others htracks hs hf hr⟩

/-- A token is cancelled and dropped; a copy of its copy is made afterwards, and its name is used
again. -/
def droppedFamily : List TokenStep :=
  [.copy "late" "copy", .create "first", .drop "first", .cancel "first", .copy "copy" "first",
    .create "first"]

theorem tokens_families_sample : ∃ t, Tokens.after? droppedFamily = some t ∧
    Shows t "late" (Cancelled droppedFamily 0) ∧ Cancelled droppedFamily 0 ∧
    Shows t "first" (Cancelled droppedFamily 4) ∧ ¬Cancelled droppedFamily 4 ∧
    ∀ t', t.step (.cancel "first") = some t' → t'.isCancelled? "late" = t.isCancelled? "late" := by
  have hrun : (Tokens.after? droppedFamily).isSome = true := by decide
  obtain ⟨t, ht⟩ := Option.isSome_iff_exists.1 hrun
  obtain ⟨-, -, -, hshows, -, hsteps⟩ := tokens_families ht
  have hlate : family? droppedFamily "late" = some 0 := by decide
  have hfirst : family? droppedFamily "first" = some 4 := by decide
  refine ⟨t, ht, hshows "late" 0 hlate, ?_, hshows "first" 4 hfirst, ?_, fun t' ht' => ?_⟩
  · exact ⟨[.copy "late" "copy", .create "first", .drop "first"], "first", _, rfl, by decide⟩
  · simp [droppedFamily, cancelled_cons, family?, not_cancelled_nil]
  · refine ((hsteps (.cancel "first")).2 t' ht' "late" 0 hlate (by decide)).2 ?_
    intro cancelled heq
    obtain rfl := TokenStep.cancel.inj heq
    rw [hfirst]
    decide

end DirDigest
