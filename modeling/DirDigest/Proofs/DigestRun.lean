import DirDigest.Proofs.DigestMap
import DirDigest.Proofs.PathDigest
import Mathlib.Tactic.Choose

/-! # The run over a tree and its sink

A run goes through the keys that are not ignored. At each of them the sink is told the key and then
asked whether to go on, and only then is the key digested; `StatusSink.goesOn` and `StatusSink.next`
are what the sink makes of one key.

* `Passes`: a run gets past a list of keys.
* `digestKeys_append`: what a run has come to after the keys that it gets past.
* `digestKeys_cancelled`, `digestKeys_unread`, `digestKeys_complete`: the three ends of a run.
* `digestDirectory_eq_ok`, `silent_eq_ok`: the map of a run that ends well, and of one that nobody
  stops.
* `recording_after`: the calls that a sink receives.
* `digestDirectory_protocol`: the calls and the outcome of a whole run, for every sink.
-/

set_option autoImplicit false

namespace DirDigest

/-! ## Sinks -/

namespace StatusSink
variable {σ : Type} (sink : StatusSink σ)

/-- The answer of a sink to the question whether to go on at a key. -/
def goesOn (s : σ) (key : String) : Bool := (sink.check (sink.report key s)).1

/-- The state of a sink after it was told a key and asked. -/
def next (s : σ) (key : String) : σ := (sink.check (sink.report key s)).2

theorem check_report (s : σ) (key : String) :
    sink.check (sink.report key s) = (sink.goesOn s key, sink.next s key) := rfl

/-- The state of a sink after it was told some keys and asked at each. -/
def after (s : σ) (keys : List String) : σ := keys.foldl sink.next s

@[simp] theorem after_nil (s : σ) : sink.after s [] = s := rfl

@[simp] theorem after_cons (s : σ) (key : String) (rest : List String) :
    sink.after s (key :: rest) = sink.after (sink.next s key) rest := rfl

theorem after_append (s : σ) (keys rest : List String) :
    sink.after s (keys ++ rest) = sink.after (sink.after s keys) rest := List.foldl_append

end StatusSink

/-- The calls that a sink receives about some keys. -/
def callsAbout (keys : List String) : List SinkCall := keys.flatMap fun key => [.report key, .check]

@[simp] theorem recording_goesOn {σ : Type} (sink : StatusSink σ) (s : σ) (calls : List SinkCall)
    (key : String) : sink.recording.goesOn (s, calls) key = sink.goesOn s key := rfl

@[simp] theorem recording_next {σ : Type} (sink : StatusSink σ) (s : σ) (calls : List SinkCall)
    (key : String) :
    sink.recording.next (s, calls) key = (sink.next s key, calls ++ callsAbout [key]) := by
  simp [StatusSink.next, StatusSink.recording, callsAbout]

theorem recording_after {σ : Type} (sink : StatusSink σ) (s : σ) (calls : List SinkCall)
    (keys : List String) :
    sink.recording.after (s, calls) keys = (sink.after s keys, calls ++ callsAbout keys) := by
  induction keys generalizing s calls with
  | nil => simp [callsAbout]
  | cons key rest ih =>
    rw [StatusSink.after_cons, recording_next, ih, StatusSink.after_cons]
    simp [callsAbout]

/-! ## Getting past keys -/

/-- Whether a run gets past keys: at each of them the sink goes on and the key can be read. -/
def Passes {σ : Type} (sink : StatusSink σ) (reads : String → Prop) : σ → List String → Prop
  | _, [] => True
  | s, key :: rest => sink.goesOn s key = true ∧ reads key ∧ Passes sink reads (sink.next s key) rest

theorem Passes.reads {σ : Type} {sink : StatusSink σ} {reads : String → Prop} {s : σ}
    {keys : List String} (hp : Passes sink reads s keys) : ∀ key ∈ keys, reads key := by
  induction keys generalizing s with
  | nil => exact nofun
  | cons key rest ih => exact List.forall_mem_cons.2 ⟨hp.2.1, ih hp.2.2⟩

theorem Passes.imp {σ : Type} {sink : StatusSink σ} {reads reads' : String → Prop} {s : σ}
    {keys : List String} (h : ∀ key ∈ keys, reads key → reads' key)
    (hp : Passes sink reads s keys) : Passes sink reads' s keys := by
  induction keys generalizing s with
  | nil => trivial
  | cons key rest ih =>
    obtain ⟨hkey, hrest⟩ := List.forall_mem_cons.1 h
    exact ⟨hp.1, hkey hp.2.1, ih hrest hp.2.2⟩

theorem recording_passes {σ : Type} (sink : StatusSink σ) (reads : String → Prop) (s : σ)
    (calls : List SinkCall) (keys : List String) :
    Passes sink.recording reads (s, calls) keys ↔ Passes sink reads s keys := by
  induction keys generalizing s calls with
  | nil => exact Iff.rfl
  | cons key rest ih => simp only [Passes, recording_goesOn, recording_next, ih]

/-! ## The loop -/

/-- The keys that are not ignored. -/
def liveKeys (ignored keys : List String) : List String :=
  keys.filter fun key => !ignored.contains key

theorem mem_liveKeys {ignored keys : List String} {key : String} :
    key ∈ liveKeys ignored keys ↔ key ∈ keys ∧ key ∉ ignored := by
  simp [liveKeys]

/-- The digest of a key, or the failure of its path. -/
def Digester.digestKey (d : Digester) (t : FileTree) (root : Path) (key : String) :
    Except DigestError Digest := (d.digestPath t (root.join key)).result

/-- The events of digesting keys. -/
def Digester.eventsAbout (d : Digester) (t : FileTree) (root : Path) (keys : List String) :
    List Event := keys.flatMap fun (key : String) => (d.digestPath t (root.join key)).events

/-- Whether a key has a digest. -/
def Digester.ReadsKey (d : Digester) (t : FileTree) (root : Path) (key : String) : Prop :=
  ∃ digest, d.digestKey t root key = .ok digest

section Loop
variable {σ : Type} {sink : StatusSink σ} {t : FileTree} {root : Path}

theorem digestKeys_live (sink : StatusSink σ) (t : FileTree) (root : Path)
    (ignored keys : List String) (d : Digester) (s : σ) (map : DigestMap) (events : List Event) :
    digestKeys sink t root ignored keys d s map events =
      digestKeys sink t root [] (liveKeys ignored keys) d s map events := by
  induction keys generalizing d s map events with
  | nil => rfl
  | cons key rest ih =>
    by_cases hi : ignored.contains key = true
    · have hlive : liveKeys ignored (key :: rest) = liveKeys ignored rest := by
        simp only [liveKeys, List.filter_cons, hi, Bool.not_true, Bool.false_eq_true, if_false]
      rw [hlive, ← ih]
      simp only [digestKeys, hi, if_true]
    · have hlive : liveKeys ignored (key :: rest) = key :: liveKeys ignored rest := by
        simp only [liveKeys, List.filter_cons, hi, Bool.not_false, if_true]
      rw [hlive]
      simp only [digestKeys, hi, Bool.false_eq_true, if_false, List.contains_nil, ih]

theorem digestKeys_cons_cancelled {s : σ} {key : String} (h : sink.goesOn s key = false)
    (rest : List String) (d : Digester) (map : DigestMap) (events : List Event) :
    digestKeys sink t root [] (key :: rest) d s map events =
      ⟨.error .cancelled, events, d, sink.next s key⟩ := by
  rw [digestKeys, List.contains_nil, if_neg Bool.false_ne_true, sink.check_report, h]

theorem digestKeys_cons_unread {s : σ} {key : String} (h : sink.goesOn s key = true)
    {d : Digester} {e : DigestError} (he : d.digestKey t root key = .error e)
    (rest : List String) (map : DigestMap) (events : List Event) :
    digestKeys sink t root [] (key :: rest) d s map events =
      ⟨.error e, events ++ (d.digestPath t (root.join key)).events,
        (d.digestPath t (root.join key)).digester, sink.next s key⟩ := by
  unfold Digester.digestKey at he
  rw [digestKeys, List.contains_nil, if_neg Bool.false_ne_true, sink.check_report, h]
  dsimp only
  rw [he]

theorem digestKeys_cons {s : σ} {key : String} (h : sink.goesOn s key = true) {d : Digester}
    {digest : Digest} (hd : d.digestKey t root key = .ok digest) (rest : List String)
    (map : DigestMap) (events : List Event) :
    digestKeys sink t root [] (key :: rest) d s map events =
      digestKeys sink t root [] rest (d.digestPath t (root.join key)).digester (sink.next s key)
        (map.insert key digest) (events ++ (d.digestPath t (root.join key)).events) := by
  unfold Digester.digestKey at hd
  rw [digestKeys, List.contains_nil, if_neg Bool.false_ne_true, sink.check_report, h]
  dsimp only
  rw [hd]

theorem digestKey_congr {d e : Digester} (h : d.Agrees e) (key : String) :
    d.digestKey t root key = e.digestKey t root key := (digestPath_congr h t (root.join key)).1

/-- The run lemma: past the keys in `before` a run has inserted their digests in order, and goes on
with a digester that agrees with the one at the start. -/
theorem digestKeys_append {base : Digester} {digest : String → Digest} {before : List String}
    {d : Digester} {s : σ} (hd : d.Agrees base)
    (hp : Passes sink (fun key => base.digestKey t root key = .ok (digest key)) s before)
    (rest : List String) (map : DigestMap) (events : List Event) :
    ∃ d' : Digester, d'.Agrees base ∧
      digestKeys sink t root [] (before ++ rest) d s map events =
        digestKeys sink t root [] rest d' (sink.after s before) (map.insertAll digest before)
          (events ++ base.eventsAbout t root before) := by
  -- each key leaves another buffer behind; that the digester still agrees carries the induction
  induction before generalizing d s map events with
  | nil => exact ⟨d, hd, by simp [DigestMap.insertAll, Digester.eventsAbout]⟩
  | cons key before ih =>
    obtain ⟨hgo, hkey, hp⟩ := hp
    have hread : d.digestKey t root key = .ok (digest key) := (digestKey_congr hd key).trans hkey
    have hevents := (digestPath_congr hd t (root.join key)).2
    have hnext := (digestPath_agrees d t (root.join key)).trans hd
    obtain ⟨d', hd', hrun⟩ := ih hnext hp (map.insert key (digest key))
      (events ++ (d.digestPath t (root.join key)).events)
    refine ⟨d', hd', ?_⟩
    rw [List.cons_append, digestKeys_cons hgo hread, hrun, hevents, List.append_assoc]
    rfl

/-! ## The ends of a run -/

variable {d : Digester} {s : σ} {before : List String}

/-- A run gets past all keys, or there is a first key at which it is cancelled or cannot read. -/
theorem passes_or_stops (sink : StatusSink σ) (d : Digester) (t : FileTree) (root : Path) (s : σ)
    (keys : List String) :
    Passes sink (d.ReadsKey t root) s keys ∨
    ∃ before key rest, keys = before ++ key :: rest ∧ Passes sink (d.ReadsKey t root) s before ∧
      (sink.goesOn (sink.after s before) key = false ∨
        sink.goesOn (sink.after s before) key = true ∧ ∃ e, d.digestKey t root key = .error e) := by
  induction keys generalizing s with
  | nil => exact .inl trivial
  | cons key rest ih =>
    cases hgo : sink.goesOn s key with
    | false => exact .inr ⟨[], key, rest, rfl, trivial, .inl hgo⟩
    | true =>
      cases hkey : d.digestKey t root key with
      | error e => exact .inr ⟨[], key, rest, rfl, trivial, .inr ⟨hgo, e, hkey⟩⟩
      | ok digest =>
        rcases ih (sink.next s key) with hp | ⟨before, k, after, rfl, hp, hstop⟩
        · exact .inl ⟨hgo, ⟨digest, hkey⟩, hp⟩
        · exact .inr ⟨key :: before, k, after, rfl, ⟨hgo, ⟨digest, hkey⟩, hp⟩, hstop⟩

theorem Passes.exists_digest (hp : Passes sink (d.ReadsKey t root) s before) :
    ∃ digest : String → Digest,
      Passes sink (fun key => d.digestKey t root key = .ok (digest key)) s before := by
  have hchoice : ∀ key, ∃ x, d.ReadsKey t root key → d.digestKey t root key = .ok x := by
    intro key
    by_cases h : d.ReadsKey t root key
    · exact h.imp fun _ hx _ => hx
    · exact ⟨directoryDigest, fun hr => absurd hr h⟩
  choose digest hdigest using hchoice
  exact ⟨digest, hp.imp fun key _ => hdigest key⟩

theorem digestKeys_cancelled (hp : Passes sink (d.ReadsKey t root) s before) {key : String}
    (hc : sink.goesOn (sink.after s before) key = false) (rest : List String) (map : DigestMap) :
    ∃ d', digestKeys sink t root [] (before ++ key :: rest) d s map [] =
      ⟨.error .cancelled, d.eventsAbout t root before, d', sink.after s (before ++ [key])⟩ := by
  obtain ⟨digest, hp⟩ := hp.exists_digest
  obtain ⟨d', -, hrun⟩ := digestKeys_append (.refl d) hp (key :: rest) map []
  refine ⟨d', ?_⟩
  rw [hrun, digestKeys_cons_cancelled hc, StatusSink.after_append]
  rfl

theorem digestKeys_unread (hp : Passes sink (d.ReadsKey t root) s before) {key : String}
    (hgo : sink.goesOn (sink.after s before) key = true) {e : DigestError}
    (he : d.digestKey t root key = .error e) (rest : List String) (map : DigestMap) :
    ∃ d', digestKeys sink t root [] (before ++ key :: rest) d s map [] =
      ⟨.error e, d.eventsAbout t root (before ++ [key]), d', sink.after s (before ++ [key])⟩ := by
  obtain ⟨digest, hp⟩ := hp.exists_digest
  obtain ⟨d', hd', hrun⟩ := digestKeys_append (.refl d) hp (key :: rest) map []
  refine ⟨(d'.digestPath t (root.join key)).digester, ?_⟩
  rw [hrun, digestKeys_cons_unread hgo ((digestKey_congr hd' key).trans he),
    (digestPath_congr hd' t (root.join key)).2, StatusSink.after_append]
  simp [Digester.eventsAbout, StatusSink.after]

theorem digestKeys_complete {digest : String → Digest} {keys : List String}
    (hp : Passes sink (fun key => d.digestKey t root key = .ok (digest key)) s keys)
    (map : DigestMap) :
    ∃ d', digestKeys sink t root [] keys d s map [] =
      ⟨.ok (map.insertAll digest keys), d.eventsAbout t root keys, d', sink.after s keys⟩ := by
  obtain ⟨d', -, hrun⟩ := digestKeys_append (.refl d) hp [] map []
  rw [List.append_nil] at hrun
  exact ⟨d', hrun⟩

end Loop

/-! ## Whole runs -/

section Whole
variable {σ : Type} {sink : StatusSink σ} {t : FileTree} {root : Path} {d : Digester}
  {ignored keys : List String} {s : σ}

theorem digestDirectory_error {e : DigestError}
    (h : collectKeys t d.config.followLinks root = .error e) :
    d.digestDirectory t root ignored sink s = ⟨.error e, [], d, s⟩ := by
  simp only [Digester.digestDirectory, h]

variable (hk : collectKeys t d.config.followLinks root = .ok keys)
include hk

/-- After the walk a run is its loop over the keys that are not ignored; a run that ends well has
one more event. -/
theorem digestDirectory_loop (ignored : List String) (sink : StatusSink σ) (s : σ) :
    (d.digestDirectory t root ignored sink s).result =
      (digestKeys sink t root [] (liveKeys ignored keys) d s .empty []).result ∧
    (d.digestDirectory t root ignored sink s).sink =
      (digestKeys sink t root [] (liveKeys ignored keys) d s .empty []).sink ∧
    ∀ e, (digestKeys sink t root [] (liveKeys ignored keys) d s .empty []).result = .error e →
      (d.digestDirectory t root ignored sink s).events =
        (digestKeys sink t root [] (liveKeys ignored keys) d s .empty []).events := by
  simp only [Digester.digestDirectory, hk, digestKeys_live sink t root ignored keys]
  split
  · exact ⟨rfl, rfl, fun _ _ => rfl⟩
  · rename_i map hmap
    refine ⟨rfl, rfl, fun e he => ?_⟩
    rw [hmap] at he
    cases he

theorem digestDirectory_cancelled {before rest : List String} {key : String}
    (hl : liveKeys ignored keys = before ++ key :: rest)
    (hp : Passes sink (d.ReadsKey t root) s before)
    (hc : sink.goesOn (sink.after s before) key = false) :
    (d.digestDirectory t root ignored sink s).result = .error .cancelled ∧
    (d.digestDirectory t root ignored sink s).sink = sink.after s (before ++ [key]) ∧
    (d.digestDirectory t root ignored sink s).events = d.eventsAbout t root before := by
  obtain ⟨d', hrun⟩ := digestKeys_cancelled hp hc rest .empty
  obtain ⟨hr, hs, he⟩ := digestDirectory_loop hk ignored sink s
  rw [hl, hrun] at hr hs he
  exact ⟨hr, hs, he _ rfl⟩

theorem digestDirectory_unread {before rest : List String} {key : String} {e : DigestError}
    (hl : liveKeys ignored keys = before ++ key :: rest)
    (hp : Passes sink (d.ReadsKey t root) s before)
    (hgo : sink.goesOn (sink.after s before) key = true)
    (hkey : d.digestKey t root key = .error e) :
    (d.digestDirectory t root ignored sink s).result = .error e ∧
    (d.digestDirectory t root ignored sink s).sink = sink.after s (before ++ [key]) ∧
    (d.digestDirectory t root ignored sink s).events = d.eventsAbout t root (before ++ [key]) := by
  obtain ⟨d', hrun⟩ := digestKeys_unread hp hgo hkey rest .empty
  obtain ⟨hr, hs, he⟩ := digestDirectory_loop hk ignored sink s
  rw [hl, hrun] at hr hs he
  exact ⟨hr, hs, he _ rfl⟩

theorem digestDirectory_complete {digest : String → Digest}
    (hp : Passes sink (fun key => d.digestKey t root key = .ok (digest key)) s
      (liveKeys ignored keys)) :
    (d.digestDirectory t root ignored sink s).result =
      .ok (DigestMap.empty.insertAll digest (liveKeys ignored keys)) ∧
    (d.digestDirectory t root ignored sink s).sink = sink.after s (liveKeys ignored keys) := by
  obtain ⟨d', hrun⟩ := digestKeys_complete hp .empty
  obtain ⟨hr, hs, -⟩ := digestDirectory_loop hk ignored sink s
  rw [hrun] at hr hs
  exact ⟨hr, hs⟩

omit hk

/-- A run ends well exactly if the walk does, every key has a digest and the sink goes on at each
of them. -/
theorem digestDirectory_eq_ok {map : DigestMap} :
    (d.digestDirectory t root ignored sink s).result = .ok map ↔
      ∃ (keys : List String) (digest : String → Digest),
        collectKeys t d.config.followLinks root = .ok keys ∧
        Passes sink (fun key => d.digestKey t root key = .ok (digest key)) s
          (liveKeys ignored keys) ∧
        map = DigestMap.empty.insertAll digest (liveKeys ignored keys) := by
  constructor
  · intro h
    cases hk : collectKeys t d.config.followLinks root with
    | error e =>
      rw [digestDirectory_error hk] at h
      cases h
    | ok keys =>
      rcases passes_or_stops sink d t root s (liveKeys ignored keys) with
        hp | ⟨before, key, rest, hl, hp, hc | ⟨hgo, e, hkey⟩⟩
      · obtain ⟨digest, hp⟩ := hp.exists_digest
        rw [(digestDirectory_complete hk hp).1] at h
        exact ⟨keys, digest, rfl, hp, (Except.ok.inj h).symm⟩
      · rw [(digestDirectory_cancelled hk hl hp hc).1] at h
        cases h
      · rw [(digestDirectory_unread hk hl hp hgo hkey).1] at h
        cases h
  · rintro ⟨keys, digest, hk, hread, rfl⟩
    exact (digestDirectory_complete hk hread).1

/-! ## Runs that nobody stops -/

theorem silent_passes {reads : String → Prop} {keys : List String} :
    Passes .silent reads () keys ↔ ∀ key ∈ keys, reads key := by
  induction keys with
  | nil => simp [Passes]
  | cons key rest ih =>
    rw [Passes, List.forall_mem_cons]
    exact ⟨fun h => ⟨h.2.1, ih.1 h.2.2⟩, fun h => ⟨rfl, h.1, ih.2 h.2⟩⟩

/-- Such a run ends well exactly if the walk does and every key has a digest. -/
theorem silent_eq_ok {map : DigestMap} :
    (d.digestDirectory t root ignored .silent ()).result = .ok map ↔
      ∃ (keys : List String) (digest : String → Digest),
        collectKeys t d.config.followLinks root = .ok keys ∧
        (∀ key ∈ liveKeys ignored keys, d.digestKey t root key = .ok (digest key)) ∧
        map = DigestMap.empty.insertAll digest (liveKeys ignored keys) := by
  simp only [digestDirectory_eq_ok, silent_passes]

end Whole

/-- The calls that a sink receives in a run over the keys `live`, and the outcome of the run. The
sink is in state `s` at the start; the recorded calls are none at the start. -/
structure RunProtocol {σ : Type} (d : Digester) (t : FileTree) (root : Path) (sink : StatusSink σ)
    (s : σ) (live : List String) (run : TreeRun (σ × List SinkCall)) : Prop where
  /-- The first key at which the sink calls the run off ends it before the key is digested, whether
  it could have been read or not. -/
  cancelled : ∀ before key rest, live = before ++ key :: rest →
    Passes sink (d.ReadsKey t root) s before → sink.goesOn (sink.after s before) key = false →
    run.result = .error .cancelled ∧ run.sink.2 = callsAbout (before ++ [key]) ∧
      run.events = d.eventsAbout t root before
  /-- The first key without digest ends the run with the failure of its path, if the sink goes on
  there. -/
  unread : ∀ before key rest e, live = before ++ key :: rest →
    Passes sink (d.ReadsKey t root) s before → sink.goesOn (sink.after s before) key = true →
    d.digestKey t root key = .error e →
    (∃ cause, e = .read (root.join key) cause) ∧ run.result = .error e ∧
      run.sink.2 = callsAbout (before ++ [key]) ∧
      run.events = d.eventsAbout t root (before ++ [key])
  /-- Without such a key the run ends well, after all calls. -/
  complete : Passes sink (d.ReadsKey t root) s live →
    (∃ map, run.result = .ok map) ∧ run.sink.2 = callsAbout live
  /-- A run fails in these two ways only. -/
  only : ∀ e, run.result = .error e →
    e = .cancelled ∨ ∃ key ∈ live, ∃ cause, e = .read (root.join key) cause

section Recording
variable {σ : Type} {sink : StatusSink σ} {t : FileTree} {root : Path} {d : Digester}
  {ignored keys : List String} {s : σ} {before : List String} {key : String}

theorem recording_goesOn_after (sink : StatusSink σ) (s : σ) (before : List String) (key : String) :
    sink.recording.goesOn (sink.recording.after (s, []) before) key =
      sink.goesOn (sink.after s before) key := by
  rw [recording_after, recording_goesOn]

theorem recording_calls (sink : StatusSink σ) (s : σ) (keys : List String) :
    (sink.recording.after (s, []) keys).2 = callsAbout keys := by
  rw [recording_after, List.nil_append]

theorem runProtocol (hk : collectKeys t d.config.followLinks root = .ok keys)
    (ignored : List String) (sink : StatusSink σ) (s : σ) :
    RunProtocol d t root sink s (liveKeys ignored keys)
      (d.digestDirectory t root ignored sink.recording (s, [])) := by
  have hpast : ∀ before, Passes sink (d.ReadsKey t root) s before →
      Passes sink.recording (d.ReadsKey t root) (s, []) before :=
    fun before hp => (recording_passes sink _ s [] before).2 hp
  constructor
  · intro before key rest hl hp hc
    rw [← recording_goesOn_after] at hc
    obtain ⟨hr, hs, he⟩ := digestDirectory_cancelled hk hl (hpast before hp) hc
    exact ⟨hr, by rw [hs, recording_calls], he⟩
  · intro before key rest e hl hp hgo hkey
    rw [← recording_goesOn_after] at hgo
    obtain ⟨hr, hs, he⟩ := digestDirectory_unread hk hl (hpast before hp) hgo hkey
    exact ⟨digestPath_error hkey, hr, by rw [hs, recording_calls], he⟩
  · intro hp
    obtain ⟨digest, hp'⟩ := (hpast _ hp).exists_digest
    obtain ⟨hr, hs⟩ := digestDirectory_complete hk hp'
    exact ⟨⟨_, hr⟩, by rw [hs, recording_calls]⟩
  · intro e he
    rcases passes_or_stops sink.recording d t root (s, []) (liveKeys ignored keys) with
      hp | ⟨before, key, rest, hl, hp, hc | ⟨hgo, cause, hkey⟩⟩
    · obtain ⟨digest, hp'⟩ := hp.exists_digest
      rw [(digestDirectory_complete hk hp').1] at he
      cases he
    · rw [(digestDirectory_cancelled hk hl hp hc).1] at he
      cases he
      exact .inl rfl
    · rw [(digestDirectory_unread hk hl hp hgo hkey).1] at he
      cases he
      exact .inr ⟨key, by rw [hl]; simp, digestPath_error hkey⟩

/-- A sink is told of keys that are not ignored only. -/
theorem reported_live (hk : collectKeys t d.config.followLinks root = .ok keys)
    (ignored : List String) (sink : StatusSink σ) (s : σ)
    (h : .report key ∈ (d.digestDirectory t root ignored sink.recording (s, [])).sink.2) :
    key ∈ liveKeys ignored keys := by
  have hcalls : ∀ told : List String, .report key ∈ callsAbout told → key ∈ told := by
    intro told htold
    simpa [callsAbout] using htold
  have hbefore : ∀ before last rest, liveKeys ignored keys = before ++ last :: rest →
      key ∈ before ++ [last] → key ∈ liveKeys ignored keys := by
    intro before last rest hl hmem
    rw [hl, List.append_cons]
    exact List.mem_append_left rest hmem
  rcases passes_or_stops sink.recording d t root (s, []) (liveKeys ignored keys) with
    hp | ⟨before, last, rest, hl, hp, hc | ⟨hgo, e, hlast⟩⟩
  · obtain ⟨digest, hp⟩ := hp.exists_digest
    rw [(digestDirectory_complete hk hp).2, recording_calls] at h
    exact hcalls _ h
  · rw [(digestDirectory_cancelled hk hl hp hc).2.1, recording_calls] at h
    exact hbefore before last rest hl (hcalls _ h)
  · rw [(digestDirectory_unread hk hl hp hgo hlast).2.1, recording_calls] at h
    exact hbefore before last rest hl (hcalls _ h)

/-- Recording the calls of a sink changes neither the outcome of a run nor the states of the sink. -/
theorem recording_transparent (d : Digester) (t : FileTree) (root : Path) (ignored : List String)
    (sink : StatusSink σ) (s : σ) :
    (d.digestDirectory t root ignored sink s).result =
      (d.digestDirectory t root ignored sink.recording (s, [])).result ∧
    (d.digestDirectory t root ignored sink s).sink =
      (d.digestDirectory t root ignored sink.recording (s, [])).sink.1 := by
  cases hk : collectKeys t d.config.followLinks root with
  | error e =>
    rw [digestDirectory_error hk, digestDirectory_error hk]
    exact ⟨rfl, rfl⟩
  | ok keys =>
    -- with and without recording a run gets past the same keys, so both come to the same end
    have hpast := fun reads before => (recording_passes sink reads s [] before).2
    rcases passes_or_stops sink d t root s (liveKeys ignored keys) with
      hp | ⟨before, key, rest, hl, hp, hc | ⟨hgo, cause, hkey⟩⟩
    · obtain ⟨digest, hp⟩ := hp.exists_digest
      obtain ⟨hr, hs⟩ := digestDirectory_complete hk hp
      obtain ⟨hr', hs'⟩ := digestDirectory_complete hk (hpast _ _ hp)
      rw [hr, hs, hr', hs', recording_after]
      exact ⟨rfl, rfl⟩
    · obtain ⟨hr, hs, -⟩ := digestDirectory_cancelled hk hl hp hc
      rw [← recording_goesOn_after] at hc
      obtain ⟨hr', hs', -⟩ := digestDirectory_cancelled hk hl (hpast _ _ hp) hc
      rw [hr, hs, hr', hs', recording_after]
      exact ⟨rfl, rfl⟩
    · obtain ⟨hr, hs, -⟩ := digestDirectory_unread hk hl hp hgo hkey
      rw [← recording_goesOn_after] at hgo
      obtain ⟨hr', hs', -⟩ := digestDirectory_unread hk hl (hpast _ _ hp) hgo hkey
      rw [hr, hs, hr', hs', recording_after]
      exact ⟨rfl, rfl⟩

end Recording

/-- The protocol between a run and its sink, for every sink. A run whose root cannot be walked fails
without a call. Recording the calls changes nothing. -/
theorem digestDirectory_protocol {σ : Type} (d : Digester) (t : FileTree) (root : Path)
    (ignored : List String) (sink : StatusSink σ) (s : σ) :
    (∀ e, collectKeys t d.config.followLinks root = .error e →
      (d.digestDirectory t root ignored sink.recording (s, [])).result = .error e ∧
      (d.digestDirectory t root ignored sink.recording (s, [])).sink = (s, [])) ∧
    (∀ keys, collectKeys t d.config.followLinks root = .ok keys →
      RunProtocol d t root sink s (liveKeys ignored keys)
        (d.digestDirectory t root ignored sink.recording (s, []))) ∧
    (d.digestDirectory t root ignored sink s).result =
      (d.digestDirectory t root ignored sink.recording (s, [])).result ∧
    (d.digestDirectory t root ignored sink s).sink =
      (d.digestDirectory t root ignored sink.recording (s, [])).sink.1 := by
  refine ⟨fun e he => ?_, fun keys hk => ?_, recording_transparent d t root ignored sink s⟩
  · rw [digestDirectory_error he]
    exact ⟨rfl, rfl⟩
  · exact runProtocol hk ignored sink s

end DirDigest
