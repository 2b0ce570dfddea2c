import DirDigest.Accumulators
import DirDigest.Proofs.Reading
import DirDigest.Proofs.Remainder

/-! # What named accumulators have absorbed

A history is a list of operations, the latest one first. An accumulator has absorbed what its source
had absorbed when it was copied, and what was added to it since.

* `Ledger.after?`: the ledger after a history.
* `absorbed?`: the bytes behind a name, told by the history alone.
* `Ledger.step_eq`: all that one operation does.
* `records_step`, `records_after`: one operation, and a whole history, keep the record.
* `accumulators_absorb`: every accumulator has the CRC-32 of its own bytes.
-/

set_option autoImplicit false

namespace DirDigest

/-! ## Histories -/

/-- The accumulator that an operation starts from, if it does not start afresh. -/
def LedgerStep.source? : LedgerStep → Option String
  | .create _ => none
  | .copy _ source => some source
  | .update name _ | .feed name _ _ => some name

/-- The bytes that an operation adds. A feed adds what it reads before the stop of the stream, be
that an end or a failure, and without room in its buffer nothing. -/
def LedgerStep.added : LedgerStep → Bytes
  | .create _ | .copy _ _ => []
  | .update _ bytes => bytes
  | .feed _ script capacity => if capacity = 0 then [] else script.delivered

/-- The bytes behind a name after a history; none if there is no accumulator of that name. -/
def absorbed? : List LedgerStep → String → Option Bytes
  | [], _ => none
  | step :: past, name =>
    if name = step.target then
      match step.source? with
      | none => some step.added
      | some source => (absorbed? past source).map (· ++ step.added)
    else absorbed? past name

/-- The ledger after a history, as long as each operation finds the accumulator that it needs. -/
def Ledger.after? : List LedgerStep → Option Ledger
  | [] => some {}
  | step :: past => (Ledger.after? past).bind fun l => (l.step step).map Prod.fst

/-! ## One operation -/

/-- The outcome of the feed that an operation makes. -/
def LedgerStep.run? (c : Checksum) : LedgerStep → Option Feed
  | .feed _ script capacity => some (DirDigest.feed script c { capacity := capacity })
  | _ => none

/-- The checksum that an operation starts from. -/
def Ledger.start? (l : Ledger) (step : LedgerStep) : Option Checksum :=
  match step.source? with
  | none => some .empty
  | some source => l.get? source

theorem feed_checksum (script : Script) (c : Checksum) (name : String) (capacity : Nat) :
    (feed script c { capacity := capacity }).checksum =
      c.update (LedgerStep.feed name script capacity).added := by
  rcases Nat.eq_zero_or_pos capacity with hb | hb
  · rw [feed_empty script c hb, LedgerStep.added, if_pos hb, Checksum.update_nil]
  · rw [(feed_spec script c hb).2.1, LedgerStep.added, if_neg (Nat.ne_of_gt hb)]

/-- An operation adds its bytes to the checksum that it starts from, puts the sum under its name and
reports the value. -/
theorem Ledger.step_eq (l : Ledger) (step : LedgerStep) :
    l.step step = (l.start? step).map fun c =>
      (l.set step.target (c.update step.added),
        { value := (c.update step.added).value, run := step.run? c }) := by
  cases step with
  | create name => rfl
  | copy name source => rfl
  | update name bytes => rfl
  | feed name script capacity =>
    rw [Ledger.step, Ledger.start?, LedgerStep.source?]
    simp only [feed_checksum script _ name capacity]
    rfl

/-! ## Whole histories -/

/-- Whether a ledger holds the checksums that a history tells, and no others. -/
def Ledger.Records (l : Ledger) (past : List LedgerStep) : Prop :=
  ∀ name, l.get? name = (absorbed? past name).map Checksum.empty.update

section Records
variable {l l' : Ledger} {past : List LedgerStep} {step : LedgerStep} {answer : LedgerAnswer}

theorem start_records (h : l.Records past) (step : LedgerStep) :
    (l.start? step).map (·.update step.added) =
      (absorbed? (step :: past) step.target).map Checksum.empty.update := by
  rw [Ledger.start?, absorbed?, if_pos rfl]
  cases step.source? with
  | none => rfl
  | some source =>
    simp only [h source, Option.map_map]
    refine congrArg (Option.map · (absorbed? past source)) ?_
    funext bytes
    exact Checksum.update_update _ _ _

theorem records_step (h : l.Records past) (hs : l.step step = some (l', answer)) :
    l'.Records (step :: past) := by
  rw [Ledger.step_eq] at hs
  obtain ⟨c, hc, heq⟩ := Option.map_eq_some_iff.1 hs
  obtain ⟨rfl, -⟩ := Prod.mk.inj heq
  have hstart := start_records h step
  rw [hc, Option.map_some] at hstart
  intro name
  rw [Ledger.get?_set]
  by_cases hname : name = step.target
  · rw [if_pos hname, hname, hstart]
  · rw [if_neg hname, absorbed?, if_neg hname]
    exact h name

theorem records_after (h : Ledger.after? past = some l) : l.Records past := by
  induction past generalizing l with
  | nil =>
    obtain rfl := Option.some.inj h
    intro name
    rfl
  | cons step past ih =>
    obtain ⟨before, hbefore, hstep⟩ := Option.bind_eq_some_iff.1 h
    obtain ⟨⟨l', answer⟩, hs, rfl⟩ := Option.map_eq_some_iff.1 hstep
    exact records_step (ih hbefore) hs

/-- The value behind a name is the CRC-32 of what it has absorbed. -/
theorem records_isCrc32 (h : l.Records past) {name : String} {c : Checksum}
    (hc : l.get? name = some c) :
    ∃ bytes, absorbed? past name = some bytes ∧ IsCrc32 bytes c.value := by
  rw [h name] at hc
  obtain ⟨bytes, hbytes, rfl⟩ := Option.map_eq_some_iff.1 hc
  exact ⟨bytes, hbytes, isCrc32_digestBytes bytes⟩

/-- An operation can be performed exactly if the accumulator that it starts from is there. -/
theorem records_performs (h : l.Records past) (step : LedgerStep) :
    (∃ l' answer, l.step step = some (l', answer)) ↔
      ∀ source, step.source? = some source → ∃ bytes, absorbed? past source = some bytes := by
  have hstart : (∃ l' answer, l.step step = some (l', answer)) ↔ (l.start? step).isSome := by
    rw [Ledger.step_eq]
    cases l.start? step <;> simp
  rw [hstart, Ledger.start?]
  cases step.source? with
  | none => simp
  | some source =>
    dsimp only
    rw [h source, Option.isSome_map, Option.isSome_iff_exists]
    exact ⟨fun hs other ho => Option.some.inj ho ▸ hs, fun hs => hs source rfl⟩

end Records

/-- After every operation of every history each accumulator has the CRC-32 of the bytes that its own
history has absorbed. An operation reports the value of its accumulator, which stays as it is, and
changes no other one. -/
theorem accumulators_absorb {past : List LedgerStep} {l : Ledger}
    (h : Ledger.after? past = some l) :
    (∀ name, (∃ c, l.get? name = some c) ↔ ∃ bytes, absorbed? past name = some bytes) ∧
    (∀ name c, l.get? name = some c →
      ∃ bytes, absorbed? past name = some bytes ∧ IsCrc32 bytes c.value) ∧
    ∀ step : LedgerStep,
      ((∃ l' answer, l.step step = some (l', answer)) ↔
        ∀ source, step.source? = some source → ∃ bytes, absorbed? past source = some bytes) ∧
      ∀ l' answer, l.step step = some (l', answer) →
        (∃ bytes, absorbed? (step :: past) step.target = some bytes ∧
          IsCrc32 bytes answer.value) ∧
        (l'.get? step.target).map Checksum.value = some answer.value ∧
        (∀ other, other ≠ step.target → l'.get? other = l.get? other) ∧
        ∀ other c, l'.get? other = some c →
          ∃ bytes, absorbed? (step :: past) other = some bytes ∧ IsCrc32 bytes c.value := by
  have hrecords := records_after h
  refine ⟨fun name => ?_, fun name c => records_isCrc32 hrecords, fun step =>
    ⟨records_performs hrecords step, fun l' answer hs => ?_⟩⟩
  · rw [hrecords name]
    simp
  · have hnext := records_step hrecords hs
    rw [Ledger.step_eq] at hs
    obtain ⟨c, -, heq⟩ := Option.map_eq_some_iff.1 hs
    obtain ⟨rfl, rfl⟩ := Prod.mk.inj heq
    have htarget : (l.set step.target (c.update step.added)).get? step.target =
        some (c.update step.added) := by
      rw [Ledger.get?_set, if_pos rfl]
    refine ⟨records_isCrc32 hnext htarget, ?_, fun other hother => ?_, fun other c' =>
      records_isCrc32 hnext⟩
    · rw [htarget, Option.map_some]
    · rw [Ledger.get?_set, if_neg hother]

/-- A copy made before a feed that fails, both of them used afterwards. -/
def brokenFeed : List LedgerStep :=
  [.update "copy" [3], .feed "sum" [.data [1, 2], .fail (.bare .other), .data [4]] 1,
    .copy "copy" "sum", .update "sum" [9], .create "sum"]

theorem accumulators_absorb_sample : ∃ l c d, Ledger.after? brokenFeed = some l ∧
    l.get? "sum" = some c ∧ IsCrc32 [9, 1, 2] c.value ∧
    l.get? "copy" = some d ∧ IsCrc32 [9, 3] d.value := by
  have hrun : (Ledger.after? brokenFeed).isSome = true := by decide +kernel
  obtain ⟨l, hl⟩ := Option.isSome_iff_exists.1 hrun
  obtain ⟨hlive, hvalues, -⟩ := accumulators_absorb hl
  obtain ⟨c, hc⟩ := (hlive "sum").2 ⟨[9, 1, 2], by decide⟩
  obtain ⟨d, hd⟩ := (hlive "copy").2 ⟨[9, 3], by decide⟩
  obtain ⟨sum, hsum, hcrc⟩ := hvalues "sum" c hc
  obtain ⟨copied, hcopied, hcrc'⟩ := hvalues "copy" d hd
  obtain rfl : [9, 1, 2] = sum := Option.some.inj hsum
  obtain rfl : [9, 3] = copied := Option.some.inj hcopied
  exact ⟨l, c, d, hl, hc, hcrc, hd, hcrc'⟩

end DirDigest
