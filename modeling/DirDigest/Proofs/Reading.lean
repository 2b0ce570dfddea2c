import DirDigest.Reading
import Mathlib.Algebra.Order.Floor.Div
import Mathlib.Data.List.TakeWhile
import Mathlib.GroupTheory.GroupAction.Ring

/-! # Draining a stream

The stop of a stream is its end or its first failure that is not an interruption.

* `Script.beforeStop`, `Script.fromStop`: a stream cut at its stop.
* `Script.delivered`, `Script.failure?`: the bytes before the stop, and the failure at it.
* `Drains`, `drains_data`, `drains_events`: the reads that get past events of a stream.
* `feed_eq`, `feed_spec`: a drained stream is read and absorbed up to its stop, whatever the size of
  the buffer and the bytes left in it; `feed_empty` is the case of a buffer without room.
* `feed_congr`: only whether the buffer has room matters.
* `streams_drained`: value, reads and position of every drained stream.
-/

set_option autoImplicit false

namespace DirDigest

/-! ## The stop -/

/-- Whether an event is an interruption. -/
def ReadEvent.isInterruption : ReadEvent → Bool
  | .fail cause => decide (cause.kind = .interrupted)
  | _ => false

/-- Whether a stream goes on behind an event. -/
def ReadEvent.goesOn : ReadEvent → Bool
  | .data _ => true
  | e => e.isInterruption

/-- The bytes of an event. -/
def ReadEvent.bytes : ReadEvent → Bytes
  | .data bytes => bytes
  | _ => []

/-- The events of a stream before its stop. -/
def Script.beforeStop (script : Script) : List ReadEvent := script.takeWhile ReadEvent.goesOn

/-- The stop of a stream with all that comes after it. -/
def Script.fromStop (script : Script) : Script := script.dropWhile ReadEvent.goesOn

/-- The bytes that a stream delivers before its stop. -/
def Script.delivered : Script → Bytes
  | [] => []
  | .data bytes :: rest => bytes ++ Script.delivered rest
  | .eof :: _ => []
  | .fail cause :: rest => if cause.kind = .interrupted then Script.delivered rest else []

/-- The failure at the stop of a stream, if the stop is no end. -/
def Script.failure? : Script → Option IoError
  | [] => none
  | .data _ :: rest => Script.failure? rest
  | .eof :: _ => none
  | .fail cause :: rest => if cause.kind = .interrupted then Script.failure? rest else some cause

/-- The outcome of a drained stream of which `count` bytes were read before. -/
def Script.outcome (script : Script) (count : Nat) : Except IoError Nat :=
  match script.failure? with
  | some cause => .error cause
  | none => .ok (count + script.delivered.length)

theorem goesOn_fail {cause : IoError} (h : cause.kind = .interrupted) :
    ReadEvent.goesOn (.fail cause) = true := decide_eq_true h

theorem stops_fail {cause : IoError} (h : cause.kind ≠ .interrupted) :
    ReadEvent.goesOn (.fail cause) = false := decide_eq_false h

section Cut
variable {event : ReadEvent} (rest : Script)

theorem Script.cut_goesOn (h : event.goesOn = true) :
    Script.beforeStop (event :: rest) = event :: rest.beforeStop ∧
      Script.fromStop (event :: rest) = rest.fromStop :=
  ⟨List.takeWhile_cons_of_pos h, List.dropWhile_cons_of_pos h⟩

theorem Script.cut_stop (h : event.goesOn = false) :
    Script.beforeStop (event :: rest) = [] ∧ Script.fromStop (event :: rest) = event :: rest := by
  simp [Script.beforeStop, Script.fromStop, h]

end Cut

theorem Script.delivered_eq (script : Script) :
    script.delivered = script.beforeStop.flatMap ReadEvent.bytes := by
  induction script with
  | nil => rfl
  | cons event rest ih =>
    cases event with
    | data bytes =>
      rw [Script.delivered, (Script.cut_goesOn rest rfl).1, List.flatMap_cons, ih]
      rfl
    | eof => rfl
    | fail cause =>
      by_cases hint : cause.kind = .interrupted
      · rw [Script.delivered, if_pos hint, (Script.cut_goesOn rest (goesOn_fail hint)).1,
          List.flatMap_cons, ih]
        rfl
      · rw [Script.delivered, if_neg hint, (Script.cut_stop rest (stops_fail hint)).1]
        rfl

/-- The stop is an end, reported or not, or a failure. -/
theorem Script.stop_cases (script : Script) :
    (script.failure? = none ∧ (script.fromStop = [] ∨ ∃ rest, script.fromStop = .eof :: rest)) ∨
    ∃ cause rest, cause.kind ≠ .interrupted ∧ script.failure? = some cause ∧
      script.fromStop = .fail cause :: rest := by
  induction script with
  | nil => exact .inl ⟨rfl, .inl rfl⟩
  | cons event rest ih =>
    cases event with
    | data bytes =>
      rw [Script.failure?, (Script.cut_goesOn rest rfl).2]
      exact ih
    | eof => exact .inl ⟨rfl, .inr ⟨rest, rfl⟩⟩
    | fail cause =>
      by_cases hint : cause.kind = .interrupted
      · rw [Script.failure?, if_pos hint, (Script.cut_goesOn rest (goesOn_fail hint)).2]
        exact ih
      · rw [Script.failure?, if_neg hint, (Script.cut_stop rest (stops_fail hint)).2]
        exact .inr ⟨cause, rest, hint, rfl, rfl⟩

/-! ## Getting past events -/

/-- The reads into a buffer of `capacity` bytes that it takes to get past events. -/
def readsOver (capacity : Nat) (events : List ReadEvent) : Nat :=
  (events.map fun e => e.bytes.length ⌈/⌉ capacity).sum + events.countP ReadEvent.isInterruption

theorem readsOver_cons (capacity : Nat) (event : ReadEvent) (rest : List ReadEvent) :
    readsOver capacity (event :: rest) =
      readsOver capacity [event] + readsOver capacity rest := by
  simp only [readsOver, List.map_cons, List.sum_cons, List.countP_cons, List.map_nil, List.sum_nil,
    List.countP_nil]
  omega

theorem readsOver_data (capacity : Nat) (bytes : Bytes) :
    readsOver capacity [.data bytes] = bytes.length ⌈/⌉ capacity := by
  simp [readsOver, ReadEvent.bytes, ReadEvent.isInterruption]

theorem readsOver_interruption (capacity : Nat) {cause : IoError} (h : cause.kind = .interrupted) :
    readsOver capacity [.fail cause] = 1 := by
  simp [readsOver, ReadEvent.bytes, ReadEvent.isInterruption, h]

/-- Whether draining gets from one stream to another with a number of reads that bring `bytes`. -/
def Drains (capacity : Nat) (bytes : Bytes) (reads : Nat) (script rest : Script) : Prop :=
  ∀ (fuel : Nat) (checksum : Checksum) (buffer : ReadBuffer) (count made : Nat),
    buffer.capacity = capacity → ∃ later : ReadBuffer, later.capacity = capacity ∧
      feedLoop (fuel + 1 + reads) script checksum buffer count made =
        feedLoop (fuel + 1) rest (checksum.update bytes) later (count + bytes.length)
          (made + reads)

section Draining
variable {capacity : Nat} {first second : Bytes} {m n : Nat} {script middle rest : Script}

theorem Drains.trans (h : Drains capacity first m script middle)
    (h' : Drains capacity second n middle rest) :
    Drains capacity (first ++ second) (m + n) script rest := by
  intro fuel checksum buffer count made hb
  obtain ⟨later, hl, hrun⟩ := h (fuel + n) checksum buffer count made hb
  obtain ⟨last, hlast, hrun'⟩ := h' fuel (checksum.update first) later (count + first.length)
    (made + m) hl
  have hfuel : fuel + 1 + (m + n) = fuel + n + 1 + m := by omega
  have hnext : fuel + n + 1 = fuel + 1 + n := by omega
  refine ⟨last, hlast, ?_⟩
  rw [hfuel, hrun, hnext, hrun', Checksum.update_update, List.length_append, Nat.add_assoc count,
    Nat.add_assoc made]

theorem drains_empty (hc : 0 < capacity) (rest : Script) :
    Drains capacity [] 0 (.data [] :: rest) rest := by
  intro fuel checksum buffer count made hb
  have hne : buffer.capacity ≠ 0 := by omega
  refine ⟨buffer, hb, ?_⟩
  simp [feedLoop, Script.read, hne]

theorem drains_read (hc : 0 < capacity) {bytes : Bytes} (hbytes : bytes ≠ []) (rest : Script) :
    Drains capacity (bytes.take capacity) 1 (.data bytes :: rest)
      (.data (bytes.drop capacity) :: rest) := by
  rintro fuel checksum buffer count made rfl
  obtain ⟨byte, bytes, rfl⟩ := List.exists_cons_of_ne_nil hbytes
  obtain ⟨n, hn⟩ : ∃ n, buffer.capacity = n + 1 := ⟨buffer.capacity - 1, by omega⟩
  have hread : Script.read buffer.capacity (.data (byte :: bytes) :: rest) =
      (.ok (byte :: bytes.take n), .data (bytes.drop n) :: rest) := by
    simp [Script.read, hn]
  refine ⟨buffer.load (byte :: bytes.take n), rfl, ?_⟩
  rw [feedLoop, hread]
  simp only [ReadBuffer.contents_load, hn, List.take_succ_cons, List.drop_succ_cons]

theorem drains_interruption (hc : 0 < capacity) {cause : IoError}
    (h : cause.kind = .interrupted) (rest : Script) :
    Drains capacity [] 1 (.fail cause :: rest) rest := by
  intro fuel checksum buffer count made hb
  have hne : buffer.capacity ≠ 0 := by omega
  refine ⟨buffer, hb, ?_⟩
  rw [feedLoop]
  simp [Script.read, hne, h]

theorem ceilDiv_step {n capacity : Nat} (hc : 0 < capacity) (hn : 0 < n) :
    n ⌈/⌉ capacity = 1 + (n - capacity) ⌈/⌉ capacity := by
  rw [Nat.ceilDiv_eq_add_pred_div, Nat.ceilDiv_eq_add_pred_div]
  have hsum : n + capacity - 1 = n - 1 + capacity := by omega
  rw [hsum, Nat.add_div_right _ hc, Nat.add_comm]
  rcases Nat.lt_or_ge n capacity with hlt | hle
  · rw [Nat.div_eq_of_lt (by omega), Nat.div_eq_of_lt (by omega)]
  · have hpred : n - capacity + capacity - 1 = n - 1 := by omega
    rw [hpred]

theorem drains_data (hc : 0 < capacity) (bytes : Bytes) (rest : Script) :
    Drains capacity bytes (bytes.length ⌈/⌉ capacity) (.data bytes :: rest) rest := by
  -- each read takes a buffer full of bytes, so the number of reads left goes down by one
  induction hr : bytes.length ⌈/⌉ capacity generalizing bytes with
  | zero =>
    have hnil : bytes = [] := by
      by_contra hne
      rw [ceilDiv_step hc (List.length_pos_iff.2 hne)] at hr
      omega
    subst hnil
    exact drains_empty hc rest
  | succ n ih =>
    have hne : bytes ≠ [] := by
      rintro rfl
      simp at hr
    rw [ceilDiv_step hc (List.length_pos_iff.2 hne), ← List.length_drop] at hr
    have h := (drains_read hc hne rest).trans (ih (bytes.drop capacity) (by omega))
    rw [List.take_append_drop, Nat.add_comm 1 n] at h
    exact h

theorem drains_events (hc : 0 < capacity) {events : List ReadEvent}
    (h : ∀ e ∈ events, e.goesOn = true) (rest : Script) :
    Drains capacity (events.flatMap ReadEvent.bytes) (readsOver capacity events)
      (events ++ rest) rest := by
  induction events with
  | nil => exact fun fuel checksum buffer count made hb => ⟨buffer, hb, rfl⟩
  | cons event events ih =>
    obtain ⟨hevent, hevents⟩ := List.forall_mem_cons.1 h
    have hrest := ih hevents
    rw [readsOver_cons]
    cases event with
    | data bytes =>
      rw [readsOver_data]
      exact (drains_data hc bytes (events ++ rest)).trans hrest
    | eof => cases hevent
    | fail cause =>
      have hint : cause.kind = .interrupted := of_decide_eq_true hevent
      rw [readsOver_interruption capacity hint]
      exact (drains_interruption hc hint (events ++ rest)).trans hrest

theorem readsOver_le (hc : 0 < capacity) (script : Script) :
    readsOver capacity script.beforeStop ≤ script.weight := by
  induction script with
  | nil => exact Nat.le_refl 0
  | cons event rest ih =>
    cases event with
    | data bytes =>
      have hle : bytes.length ⌈/⌉ capacity ≤ bytes.length :=
        (ceilDiv_le_iff_le_mul hc).2 (Nat.le_mul_of_pos_left bytes.length hc)
      rw [(Script.cut_goesOn rest rfl).1, readsOver_cons, readsOver_data, Script.weight]
      exact Nat.add_le_add hle ih
    | eof => exact Nat.zero_le _
    | fail cause =>
      by_cases hint : cause.kind = .interrupted
      · rw [(Script.cut_goesOn rest (goesOn_fail hint)).1, readsOver_cons,
          readsOver_interruption capacity hint, Script.weight]
        exact Nat.add_le_add_left ih 1
      · rw [(Script.cut_stop rest (stops_fail hint)).1]
        exact Nat.zero_le _

end Draining

/-! ## Whole streams -/

/-- One more read than it takes to get past the events before the stop meets the stop. -/
theorem feed_eq (script : Script) (checksum : Checksum) {buffer : ReadBuffer}
    (hb : 0 < buffer.capacity) : ∃ later : ReadBuffer, later.capacity = buffer.capacity ∧
      feed script checksum buffer = ⟨script.outcome 0, checksum.update script.delivered, later,
        script.fromStop.tail, readsOver buffer.capacity script.beforeStop + 1⟩ := by
  have hcut : script.beforeStop ++ script.fromStop = script := List.takeWhile_append_dropWhile
  have hgo : ∀ e ∈ script.beforeStop, e.goesOn = true := fun e => List.mem_takeWhile_imp
  -- the weight of the stream is fuel enough for these reads, and for one more
  obtain ⟨fuel, hfuel⟩ := Nat.exists_eq_add_of_le (readsOver_le hb script)
  have hweight : script.weight + 1 = fuel + 1 + readsOver buffer.capacity script.beforeStop := by
    omega
  obtain ⟨later, hl, hrun⟩ := drains_events hb hgo script.fromStop fuel checksum buffer 0 0 rfl
  rw [hcut, ← Script.delivered_eq, Nat.zero_add, Nat.zero_add] at hrun
  have hne : later.capacity ≠ 0 := by omega
  refine ⟨later, hl, ?_⟩
  rw [feed, hweight, hrun, Script.outcome]
  rcases script.stop_cases with ⟨hf, hs | ⟨rest, hs⟩⟩ | ⟨cause, rest, hint, hf, hs⟩
  · rw [hf, hs, Nat.zero_add]
    rfl
  · rw [hf, hs, Nat.zero_add]
    simp [feedLoop, Script.read, hne]
  · rw [hf, hs]
    simp [feedLoop, Script.read, hne, hint]

theorem feed_spec (script : Script) (checksum : Checksum) {buffer : ReadBuffer}
    (hb : 0 < buffer.capacity) :
    (feed script checksum buffer).result = script.outcome 0 ∧
    (feed script checksum buffer).checksum = checksum.update script.delivered ∧
    (feed script checksum buffer).buffer.capacity = buffer.capacity := by
  obtain ⟨later, hl, hrun⟩ := feed_eq script checksum hb
  rw [hrun]
  exact ⟨rfl, rfl, hl⟩

theorem Script.read_zero (script : Script) : script.read 0 = (.ok [], script) := by
  cases script with
  | nil => rfl
  | cons event rest =>
    cases event with
    | data bytes => rfl
    | eof => rfl
    | fail cause => rfl

/-- Without room in the buffer the first read brings nothing and ends the run. -/
theorem feed_empty (script : Script) (checksum : Checksum) {buffer : ReadBuffer}
    (hb : buffer.capacity = 0) :
    feed script checksum buffer = ⟨.ok 0, checksum, buffer, script, 1⟩ := by
  rw [feed, feedLoop, hb, Script.read_zero]

theorem feed_capacity (script : Script) (checksum : Checksum) (buffer : ReadBuffer) :
    (feed script checksum buffer).buffer.capacity = buffer.capacity := by
  rcases Nat.eq_zero_or_pos buffer.capacity with hb | hb
  · rw [feed_empty script checksum hb]
  · exact (feed_spec script checksum hb).2.2

theorem feed_congr (script : Script) (checksum : Checksum) {buffer other : ReadBuffer}
    (h : buffer.capacity = 0 ↔ other.capacity = 0) :
    (feed script checksum buffer).result = (feed script checksum other).result ∧
    (feed script checksum buffer).checksum = (feed script checksum other).checksum := by
  rcases Nat.eq_zero_or_pos buffer.capacity with hb | hb
  · rw [feed_empty script checksum hb, feed_empty script checksum (h.1 hb)]
    exact ⟨rfl, rfl⟩
  · have hb' : 0 < other.capacity := Nat.pos_of_ne_zero fun h0 => by omega
    obtain ⟨hr, hs, -⟩ := feed_spec script checksum hb
    obtain ⟨hr', hs', -⟩ := feed_spec script checksum hb'
    rw [hr, hs, hr', hs']
    exact ⟨rfl, rfl⟩

/-! ## Digests of streams -/

/-- An empty buffer counts as one of a single byte. -/
theorem digestStream_eq (script : Script) (buffer : ReadBuffer) :
    (digestStream script buffer).result =
      (script.outcome 0).map (fun _ => digestBytes script.delivered) ∧
    (digestStream script buffer).reads =
      readsOver (max buffer.capacity 1) script.beforeStop + 1 := by
  unfold digestStream
  split
  · rename_i hc
    have hone : 0 < (⟨1, []⟩ : ReadBuffer).capacity := Nat.one_pos
    obtain ⟨later, -, hrun⟩ := feed_eq script .empty hone
    rw [hrun, hc]
    exact ⟨rfl, rfl⟩
  · rename_i hc
    have hpos : 0 < buffer.capacity := Nat.pos_of_ne_zero hc
    obtain ⟨later, -, hrun⟩ := feed_eq script .empty hpos
    rw [hrun, Nat.max_eq_left hpos]
    exact ⟨rfl, rfl⟩

theorem digestStream_data (content : Bytes) (buffer : ReadBuffer) :
    (digestStream [.data content] buffer).result = .ok (digestBytes content) := by
  rw [(digestStream_eq [.data content] buffer).1, Script.delivered, Script.delivered,
    List.append_nil]
  rfl

theorem digestStream_capacity (script : Script) (buffer : ReadBuffer) :
    (digestStream script buffer).buffer.capacity = buffer.capacity := by
  unfold digestStream
  split
  · rfl
  · exact feed_capacity script .empty buffer

/-! ## All streams -/

/-- Whether a result is the value that an end of the stream lets through, or the failure at the
stop. -/
structure Script.EndsIn {α : Type} (script : Script) (value : α) (result : Except IoError α) :
    Prop where
  ended : script.fromStop.head? = none ∨ script.fromStop.head? = some .eof → result = .ok value
  failed : ∀ cause, script.fromStop.head? = some (.fail cause) → result = .error cause

/-- A stream that was read up to its stop through a buffer of `capacity` bytes, and absorbed into a
checksum. -/
structure DrainedToStop (script : Script) (checksum : Checksum) (capacity : Nat) (run : Feed) :
    Prop where
  result : script.EndsIn (script.beforeStop.flatMap ReadEvent.bytes).length run.result
  absorbed : run.checksum = checksum.update (script.beforeStop.flatMap ReadEvent.bytes)
  unread : run.rest = script.fromStop.tail
  reads : run.reads = readsOver capacity script.beforeStop + 1

theorem endsIn_outcome {α : Type} (script : Script) (value : Nat → α) :
    script.EndsIn (value script.delivered.length) ((script.outcome 0).map value) := by
  rw [Script.outcome, Nat.zero_add]
  rcases script.stop_cases with ⟨hf, hs | ⟨rest, hs⟩⟩ | ⟨cause, rest, -, hf, hs⟩
  · rw [hf]
    exact ⟨fun _ => rfl, fun other h => by rw [hs] at h; cases h⟩
  · rw [hf]
    exact ⟨fun _ => rfl, fun other h => by rw [hs] at h; cases h⟩
  · rw [hf]
    refine ⟨fun h => ?_, fun other h => ?_⟩
    · rw [hs] at h
      rcases h with h | h <;> cases h
    · rw [hs] at h
      cases h
      rfl

/-- Every stream is read and absorbed up to its stop and no further, through a buffer of any size
with room. Without room one read ends the run with nothing absorbed. The digest of a stream does not
depend on the buffer. -/
theorem streams_drained (script : Script) (checksum : Checksum) (buffer : ReadBuffer) :
    (0 < buffer.capacity →
      DrainedToStop script checksum buffer.capacity (feed script checksum buffer)) ∧
    (buffer.capacity = 0 → feed script checksum buffer = ⟨.ok 0, checksum, buffer, script, 1⟩) ∧
    script.EndsIn (digestBytes (script.beforeStop.flatMap ReadEvent.bytes))
      (digestStream script buffer).result ∧
    (digestStream script buffer).reads =
      readsOver (max buffer.capacity 1) script.beforeStop + 1 ∧
    ∀ other : ReadBuffer, (digestStream script other).result =
      (digestStream script buffer).result := by
  have hdigest := digestStream_eq script
  refine ⟨fun hb => ?_, feed_empty script checksum, ?_, (hdigest buffer).2, fun other => ?_⟩
  · obtain ⟨later, -, hrun⟩ := feed_eq script checksum hb
    have hresult := endsIn_outcome script id
    rw [Except.map_id] at hresult
    rw [hrun, Script.delivered_eq]
    rw [Script.delivered_eq] at hresult
    exact ⟨hresult, rfl, rfl, rfl⟩
  · rw [(hdigest buffer).1, ← Script.delivered_eq]
    exact endsIn_outcome script fun _ => digestBytes script.delivered
  · rw [(hdigest other).1, (hdigest buffer).1]

/-- A stream with an interruption and a failure. -/
def brokenStream : Script :=
  [.data [1, 2, 3], .fail (.bare .interrupted), .data [4], .fail (.bare .other), .data [9]]

theorem streams_drained_sample :
    (feed brokenStream .empty ⟨2, []⟩).result = .error (.bare .other) ∧
    (feed brokenStream .empty ⟨2, []⟩).checksum = Checksum.empty.update [1, 2, 3, 4] ∧
    (feed brokenStream .empty ⟨2, []⟩).rest = [.data [9]] ∧
    (feed brokenStream .empty ⟨2, []⟩).reads = 5 ∧
    feed brokenStream .empty ⟨0, []⟩ = ⟨.ok 0, .empty, ⟨0, []⟩, brokenStream, 1⟩ := by
  obtain ⟨hresult, habsorbed, hunread, hreads⟩ :=
    (streams_drained brokenStream .empty ⟨2, []⟩).1 (by decide)
  exact ⟨hresult.failed _ rfl, habsorbed, hunread, hreads,
    (streams_drained brokenStream .empty ⟨0, []⟩).2.1 rfl⟩

end DirDigest
