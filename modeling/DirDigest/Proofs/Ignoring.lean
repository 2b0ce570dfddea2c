import DirDigest.Proofs.MapContents

/-! # Ignoring more paths

Two runs over one tree that nobody stops, of which the second one ignores all that the first one
ignores.

* `liveKeys_of_subset`: what is left if more is ignored.
* `silent_eq_error`: the failure of such a run is that of its first key without digest.
* `first_unread`: a key without digest is not before the first one.
* `ignoring_more`: what the second run does if the first one does so.
-/

set_option autoImplicit false

namespace DirDigest

/-! ## Keys -/

theorem liveKeys_of_subset {fewer more : List String} (h : fewer ⊆ more) (keys : List String) :
    liveKeys more keys = (liveKeys fewer keys).filter fun key => !more.contains key := by
  unfold liveKeys
  rw [List.filter_filter]
  refine List.filter_congr fun key _ => ?_
  by_cases hkey : key ∈ fewer
  · simp [hkey, h hkey]
  · simp [hkey]

/-! ## Failures -/

section Failures
variable {d : Digester} {t : FileTree} {root : Path} {ignored keys : List String}

theorem silent_eq_error (hk : collectKeys t d.config.followLinks root = .ok keys)
    {e : DigestError} :
    (d.digestDirectory t root ignored .silent ()).result = .error e ↔
      ∃ before key after, liveKeys ignored keys = before ++ key :: after ∧
        (∀ k ∈ before, d.ReadsKey t root k) ∧ d.digestKey t root key = .error e := by
  constructor
  · intro h
    rcases all_ok_or_first_error (d.digestKey t root) (liveKeys ignored keys) with
      hall | ⟨before, key, after, cause, hsplit, hbefore, hkey⟩
    · obtain ⟨digest, hp⟩ := Passes.exists_digest (silent_passes.2 hall)
      rw [(digestDirectory_complete hk hp).1] at h
      cases h
    · rw [(digestDirectory_unread hk hsplit (silent_passes.2 hbefore) rfl hkey).1] at h
      cases h
      exact ⟨before, key, after, hsplit, hbefore, hkey⟩
  · rintro ⟨before, key, after, hsplit, hbefore, hkey⟩
    exact (digestDirectory_unread hk hsplit (silent_passes.2 hbefore) rfl hkey).1

/-- A key without digest that is not ignored is the first one or comes after it. -/
theorem first_unread {before after : List String} {first key : String}
    (hsplit : liveKeys ignored keys = before ++ first :: after)
    (hbefore : ∀ k ∈ before, d.ReadsKey t root k) (hkey : key ∈ liveKeys ignored keys)
    {e : DigestError} (he : d.digestKey t root key = .error e) :
    ∃ front back, keys = front ++ first :: back ∧ key ∈ first :: back := by
  obtain ⟨head, tail, rfl, hhead, htail⟩ := List.filter_eq_append_iff.1 hsplit
  obtain ⟨skipped, rest, rfl, hskipped, hfirst, -⟩ := List.filter_eq_cons_iff.1 htail
  refine ⟨head ++ skipped, rest, by rw [List.append_assoc], ?_⟩
  have hunread : key ∉ before := by
    intro hmem
    obtain ⟨digest, hdigest⟩ := hbefore key hmem
    rw [he] at hdigest
    cases hdigest
  obtain ⟨hlisted, hlive⟩ := List.mem_filter.1 hkey
  rcases List.mem_append.1 hlisted with hhere | hhere
  · refine absurd ?_ hunread
    rw [← hhead]
    exact List.mem_filter.2 ⟨hhere, hlive⟩
  · rcases List.mem_append.1 hhere with hhere | hhere
    · exact absurd hlive (hskipped key hhere)
    · exact hhere

end Failures

/-- Ignoring more paths: the failure of the walk stays, the map of a run that ends well loses the
paths and nothing else, and a failure to read is met without ignoring them as well, if no earlier
path fails. -/
theorem ignoring_more (d : Digester) (t : FileTree) (root : Path) {fewer more : List String}
    (h : fewer ⊆ more) :
    (∀ e, collectKeys t d.config.followLinks root = .error e →
      (d.digestDirectory t root fewer .silent ()).result = .error e ∧
      (d.digestDirectory t root more .silent ()).result = .error e) ∧
    (∀ map, (d.digestDirectory t root fewer .silent ()).result = .ok map →
      (d.digestDirectory t root more .silent ()).result =
        .ok (map.restrict fun key => !more.contains key)) ∧
    ∀ path cause, (d.digestDirectory t root more .silent ()).result = .error (.read path cause) →
      ∃ (keys front back : List String) (key first : String) (cause' : IoError),
        collectKeys t d.config.followLinks root = .ok keys ∧
        path = root.join key ∧ keys = front ++ first :: back ∧ key ∈ first :: back ∧
        (d.digestDirectory t root fewer .silent ()).result =
          .error (.read (root.join first) cause') := by
  refine ⟨fun e he => ?_, fun map hmap => ?_, fun path cause hfail => ?_⟩
  · rw [digestDirectory_error he, digestDirectory_error he]
    exact ⟨rfl, rfl⟩
  · obtain ⟨keys, digest, hk, hread, rfl⟩ := silent_eq_ok.1 hmap
    have hlive := liveKeys_of_subset h keys
    refine silent_eq_ok.2 ⟨keys, digest, hk, fun key hkey => hread key ?_, ?_⟩
    · rw [hlive] at hkey
      exact (List.mem_filter.1 hkey).1
    · rw [restrict_insertAll, hlive]
  · cases hk : collectKeys t d.config.followLinks root with
    | error e =>
      rw [digestDirectory_error hk] at hfail
      cases hfail
      exact absurd rfl (collectKeys_error hk path cause)
    | ok keys =>
      obtain ⟨before, key, after, hsplit, -, hkey⟩ := (silent_eq_error hk).1 hfail
      have hmore : key ∈ liveKeys more keys := by
        rw [hsplit]
        exact List.mem_append_right before List.mem_cons_self
      have hfewer : key ∈ liveKeys fewer keys := by
        rw [liveKeys_of_subset h] at hmore
        exact (List.mem_filter.1 hmore).1
      obtain ⟨_, hread⟩ := digestPath_error hkey
      obtain ⟨rfl, rfl⟩ := DigestError.read.inj hread
      -- the key is not ignored in the first run either, which ends there if not before
      rcases all_ok_or_first_error (d.digestKey t root) (liveKeys fewer keys) with
        hall | ⟨before', first, after', e, hsplit', hbefore', hfirst⟩
      · obtain ⟨digest, hdigest⟩ := hall key hfewer
        rw [hkey] at hdigest
        cases hdigest
      · obtain ⟨front, back, hkeys, hmem⟩ := first_unread hsplit' hbefore' hfewer hkey
        obtain ⟨cause', rfl⟩ := digestPath_error hfirst
        exact ⟨keys, front, back, key, first, cause', rfl, rfl, hkeys, hmem,
          (silent_eq_error hk).2 ⟨before', first, after', hsplit', hbefore', hfirst⟩⟩

/-- A link that leads nowhere, two directories down. -/
def brokenLink : FileTree :=
  .ofTable [([utf8 "d"], .directory), ([utf8 "d", utf8 "e"], .directory),
      ([utf8 "d", utf8 "e", utf8 "x"], .link "gone")]
    (by decide) (by decide) (by decide)

-- `d/e` stays where `d` is ignored, and the failure at `d/e/x` is met whether `d` is ignored or not
theorem ignoring_more_sample :
    (∃ map, ((Digester.new {}).digestDirectory brokenLink "." ["d/e/x"] .silent ()).result =
        .ok map ∧ map.keys = ["d", "d/e"] ∧
      ((Digester.new {}).digestDirectory brokenLink "." ["d", "d/e/x"] .silent ()).result =
        .ok (map.restrict fun key => !(["d", "d/e/x"].contains key))) ∧
    ∃ cause first cause',
      ((Digester.new {}).digestDirectory brokenLink "." ["d"] .silent ()).result =
        .error (.read (("." : Path).join "d/e/x") cause) ∧
      ((Digester.new {}).digestDirectory brokenLink "." [] .silent ()).result =
        .error (.read (("." : Path).join first) cause') := by
  have hrun : ((Digester.new {}).digestDirectory brokenLink "." ["d/e/x"]
      .silent ()).result.toOption.map DigestMap.keys = some ["d", "d/e"] := by decide +kernel
  obtain ⟨map, hmap, hkeys⟩ := Option.map_eq_some_iff.1 hrun
  have hsub : ["d/e/x"] ⊆ ["d", "d/e/x"] := by decide
  have hmore := (ignoring_more (Digester.new {}) brokenLink "." hsub).2.1 map (ok_of_toOption hmap)
  have hfail : ((Digester.new {}).digestDirectory brokenLink "." ["d"] .silent ()).result =
      .error (.read (("." : Path).join "d/e/x") (.system .noEntry)) := by decide +kernel
  obtain ⟨-, -, -, -, first, cause', -, -, -, -, hfewer⟩ :=
    (ignoring_more (Digester.new {}) brokenLink "." (List.nil_subset ["d"])).2.2 _ _ hfail
  exact ⟨⟨map, ok_of_toOption hmap, hkeys, hmore⟩, _, first, cause', hfail, hfewer⟩

end DirDigest
