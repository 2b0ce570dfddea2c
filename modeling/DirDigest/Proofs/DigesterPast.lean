import DirDigest.Proofs.DigestRun
import DirDigest.Proofs.FileTree.Table

/-! # Digesters with a past

A digester keeps its buffer from call to call, with the bytes that earlier reads left there.

* `StatusSink.Matches`: sinks that cannot be told apart, whatever their states are made of.
* `digestKeys_matches`, `digestDirectory_matches`: digesters that agree and sinks that match give
  runs that match.
* `Digester.HasPast`: a digester after any calls, however they ended; `HasPast.agrees` says that it
  still agrees with a fresh one.
* `answers_alike`: neither the size of the buffer nor the past of a digester shows in its answers.
-/

set_option autoImplicit false

namespace DirDigest

/-! ## Sinks that match -/

/-- Whether related states of two sinks cannot be told apart: they answer a check alike, and after
a report or a check they are still related. -/
structure StatusSink.Matches {σ τ : Type} (sink : StatusSink σ) (other : StatusSink τ)
    (R : σ → τ → Prop) : Prop where
  report : ∀ path s u, R s u → R (sink.report path s) (other.report path u)
  answer : ∀ s u, R s u → (sink.check s).1 = (other.check u).1
  check : ∀ s u, R s u → R (sink.check s).2 (other.check u).2

/-- Whether two runs over a tree have the same outcome and events, and leave related sinks. -/
structure TreeRun.Matches {σ τ : Type} (R : σ → τ → Prop) (run : TreeRun σ) (other : TreeRun τ) :
    Prop where
  result : run.result = other.result
  events : run.events = other.events
  sink : R run.sink other.sink

section Matching
variable {σ τ : Type} {sink : StatusSink σ} {other : StatusSink τ} {R : σ → τ → Prop} {s : σ} {u : τ}

theorem StatusSink.Matches.goesOn (h : sink.Matches other R) (hs : R s u) (key : String) :
    sink.goesOn s key = other.goesOn u key :=
  h.answer _ _ (h.report key s u hs)

theorem StatusSink.Matches.next (h : sink.Matches other R) (hs : R s u) (key : String) :
    R (sink.next s key) (other.next u key) :=
  h.check _ _ (h.report key s u hs)

/-- Matching sinks that keep their calls match, and keep the same calls. -/
theorem StatusSink.Matches.recording (h : sink.Matches other R) :
    sink.recording.Matches other.recording fun s u => R s.1 u.1 ∧ s.2 = u.2 := by
  refine ⟨fun path s u hs => ⟨h.report path s.1 u.1 hs.1, ?_⟩, fun s u hs => h.answer s.1 u.1 hs.1,
    fun s u hs => ⟨h.check s.1 u.1 hs.1, ?_⟩⟩
  · exact congrArg (· ++ [SinkCall.report path]) hs.2
  · exact congrArg (· ++ [SinkCall.check]) hs.2

variable {t : FileTree} {root : Path} {d e : Digester}

/-- The run lemma. Each key leaves digesters that agree and sinks that match, or ends both runs in
the same way. -/
theorem digestKeys_matches (hd : d.Agrees e) (h : sink.Matches other R) (hs : R s u)
    (keys : List String) (map : DigestMap) (events : List Event) :
    TreeRun.Matches R (digestKeys sink t root [] keys d s map events)
      (digestKeys other t root [] keys e u map events) := by
  induction keys generalizing d e s u map events with
  | nil => exact ⟨rfl, rfl, hs⟩
  | cons key rest ih =>
    have hanswer := h.goesOn hs key
    have hkey : d.digestKey t root key = e.digestKey t root key := digestKey_congr hd key
    have hevents := (digestPath_congr hd t (root.join key)).2
    cases hgo : sink.goesOn s key with
    | false =>
      rw [digestKeys_cons_cancelled hgo, digestKeys_cons_cancelled (hanswer.symm.trans hgo)]
      exact ⟨rfl, rfl, h.next hs key⟩
    | true =>
      have hgo' := hanswer.symm.trans hgo
      cases hread : d.digestKey t root key with
      | error cause =>
        rw [digestKeys_cons_unread hgo hread, digestKeys_cons_unread hgo' (hkey.symm.trans hread),
          hevents]
        exact ⟨rfl, rfl, h.next hs key⟩
      | ok digest =>
        have hnext : (d.digestPath t (root.join key)).digester.Agrees
            (e.digestPath t (root.join key)).digester :=
          ((digestPath_agrees d t _).trans hd).trans (digestPath_agrees e t _).symm
        rw [digestKeys_cons hgo hread, digestKeys_cons hgo' (hkey.symm.trans hread), hevents]
        exact ih hnext (h.next hs key) _ _

theorem liveKeys_congr {ignored ignored' : List String} (h : ∀ key, key ∈ ignored ↔ key ∈ ignored')
    (keys : List String) : liveKeys ignored keys = liveKeys ignored' keys := by
  refine List.filter_congr fun key _ => ?_
  rw [Bool.not_inj_iff, Bool.eq_iff_iff, List.contains_iff_mem, List.contains_iff_mem]
  exact h key

theorem digestDirectory_matches (hd : d.Agrees e) (h : sink.Matches other R) (hs : R s u)
    {ignored ignored' : List String} (hi : ∀ key, key ∈ ignored ↔ key ∈ ignored') :
    TreeRun.Matches R (d.digestDirectory t root ignored sink s)
      (e.digestDirectory t root ignored' other u) := by
  unfold Digester.digestDirectory
  rw [hd.links]
  cases collectKeys t e.config.followLinks root with
  | error cause => exact ⟨rfl, rfl, hs⟩
  | ok keys =>
    have hrun : TreeRun.Matches R (digestKeys sink t root ignored keys d s .empty [])
        (digestKeys other t root ignored' keys e u .empty []) := by
      rw [digestKeys_live sink, digestKeys_live other, liveKeys_congr hi]
      exact digestKeys_matches hd h hs _ .empty []
    obtain ⟨hresult, hevents, hsink⟩ := hrun
    dsimp only
    rw [hresult]
    split
    · exact ⟨hresult, hevents, hsink⟩
    · exact ⟨rfl, congrArg (· ++ _) hevents, hsink⟩

end Matching

/-! ## The past of a digester -/

section Past
variable {σ : Type} (sink : StatusSink σ) (t : FileTree) (root : Path)

theorem digestKeys_agrees (ignored keys : List String) (d : Digester) (s : σ) (map : DigestMap)
    (events : List Event) :
    (digestKeys sink t root ignored keys d s map events).digester.Agrees d := by
  induction keys generalizing d s map events with
  | nil => exact .refl d
  | cons key rest ih =>
    unfold digestKeys
    split
    · exact ih d s map events
    · split
      · exact .refl d
      · dsimp only
        split
        · exact digestPath_agrees d t _
        · exact (ih _ _ _ _).trans (digestPath_agrees d t _)

theorem digestDirectory_agrees (d : Digester) (ignored : List String) (s : σ) :
    (d.digestDirectory t root ignored sink s).digester.Agrees d := by
  unfold Digester.digestDirectory
  split
  · exact .refl d
  · dsimp only
    split
    · exact digestKeys_agrees sink t root ignored _ d s _ _
    · exact digestKeys_agrees sink t root ignored _ d s _ _

end Past

/-- Whether a digester was made with a configuration and then used any number of times, on any
trees, with calls that may have failed or been called off. -/
inductive Digester.HasPast (c : Config) : Digester → Prop
  | fresh : HasPast c (.new c)
  | digestPath {d : Digester} (t : FileTree) (p : Path) :
    HasPast c d → HasPast c (d.digestPath t p).digester
  | digestDirectory {σ : Type} {d : Digester} (t : FileTree) (root : Path) (ignored : List String)
    (sink : StatusSink σ) (s : σ) :
    HasPast c d → HasPast c (d.digestDirectory t root ignored sink s).digester

/-- All that a past can change is the bytes left in the buffer. -/
theorem Digester.HasPast.agrees {c : Config} {d : Digester} (h : HasPast c d) :
    d.Agrees (.new c) := by
  induction h with
  | fresh => exact .refl _
  | digestPath t p _ ih => exact (digestPath_agrees _ t p).trans ih
  | digestDirectory t root ignored sink s _ ih =>
    exact (digestDirectory_agrees sink t root _ ignored s).trans ih

/-- Digesters of which the settings differ at most in the size of the buffer answer alike on every
tree, whatever they were used for before: with the same digests and failures, the same events, and
the same calls to sinks that match. -/
theorem answers_alike {c : Config} {m n : Nat} {d e : Digester}
    (hd : Digester.HasPast { c with bufferSize := m } d)
    (he : Digester.HasPast { c with bufferSize := n } e) (t : FileTree) :
    (∀ p, (d.digestPath t p).result = (e.digestPath t p).result ∧
      (d.digestPath t p).events = (e.digestPath t p).events) ∧
    ∀ {σ τ : Type} {sink : StatusSink σ} {other : StatusSink τ} {R : σ → τ → Prop} {s : σ} {u : τ},
      sink.Matches other R → R s u → ∀ {ignored ignored' : List String},
      (∀ key, key ∈ ignored ↔ key ∈ ignored') → ∀ root,
      TreeRun.Matches R (d.digestDirectory t root ignored sink s)
        (e.digestDirectory t root ignored' other u) ∧
      (d.digestDirectory t root ignored sink.recording (s, [])).sink.2 =
        (e.digestDirectory t root ignored' other.recording (u, [])).sink.2 := by
  have hfresh : (Digester.new { c with bufferSize := m }).Agrees
      (.new { c with bufferSize := n }) := new_agrees rfl rfl
  have hagree : d.Agrees e := (hd.agrees.trans hfresh).trans he.agrees.symm
  refine ⟨digestPath_congr hagree t, fun h hs _ _ hi root => ⟨digestDirectory_matches hagree h hs hi,
    ?_⟩⟩
  exact (digestDirectory_matches hagree h.recording ⟨hs, rfl⟩ hi).sink.2

/-- A file in a directory. -/
def fileBelow : FileTree :=
  .ofTable [([utf8 "d"], .directory), ([utf8 "d", utf8 "f"], .file [7, 8])]
    (by decide) (by decide) (by decide)

/-- A digester that read a file, failed at a missing path, and was called off in a directory. -/
def usedDigester : Digester :=
  ((((Digester.new { bufferSize := 3 }).digestPath fileBelow "d/f").digester.digestPath fileBelow
    "gone").digester.digestDirectory fileBelow "." [] (.ofFlag true) ()).digester

-- what the file left in the buffer, and the sinks and lists that differ, do not show
theorem answers_alike_sample :
    usedDigester.buffer.front = [7, 8] ∧
    (usedDigester.digestPath fileBelow "d/f").result =
      ((Digester.new { bufferSize := 0 }).digestPath fileBelow "d/f").result ∧
    (usedDigester.digestDirectory fileBelow "." ["d", "d"] .counting 0).result =
      ((Digester.new { bufferSize := 0 }).digestDirectory fileBelow "." ["d"] .silent ()).result ∧
    (usedDigester.digestDirectory fileBelow "." ["d", "d"] .counting 0).result =
      .ok (.ofList [("d/f", digestBytes [7, 8])]) := by
  have hused : usedDigester.HasPast { ({} : Config) with bufferSize := 3 } :=
    .digestDirectory fileBelow "." [] (.ofFlag true) ()
      (.digestPath fileBelow "gone" (.digestPath fileBelow "d/f" .fresh))
  have hsinks : StatusSink.counting.Matches .silent fun _ _ => True :=
    ⟨fun _ _ _ _ => trivial, fun _ _ _ => rfl, fun _ _ _ => trivial⟩
  obtain ⟨hpath, hdirectory⟩ := answers_alike (n := 0) hused .fresh fileBelow
  have hlists : ∀ key : String, key ∈ ["d", "d"] ↔ key ∈ ["d"] := by simp
  have hrun := (hdirectory hsinks trivial (s := 0) (u := ()) hlists ".").1
  exact ⟨by decide +kernel, (hpath "d/f").1, hrun.result, by decide +kernel⟩

end DirDigest
