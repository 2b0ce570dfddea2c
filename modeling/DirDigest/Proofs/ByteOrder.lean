import DirDigest.Bytes

/-! # Lists in byte order of a key

* `keyLe_trans`, `keyLe_total`: the order of keys as a comparison to sort by.
* `strict_of_sort`: sorted by distinct keys, a list is in strict order of them.
* `eq_of_strict_perm`: there is one list of given items in strict order.
-/

set_option autoImplicit false

namespace DirDigest

section Keys
variable {α : Type} (key : α → Bytes)

theorem keyLe_trans (x y z : α) (hxy : decide (key x ≤ key y) = true)
    (hyz : decide (key y ≤ key z) = true) : decide (key x ≤ key z) = true := by
  rw [decide_eq_true_eq] at hxy hyz ⊢
  exact List.le_trans hxy hyz

theorem keyLe_total (x y : α) : (decide (key x ≤ key y) || decide (key y ≤ key x)) = true := by
  rw [Bool.or_eq_true, decide_eq_true_eq, decide_eq_true_eq]
  exact List.le_total _ _

theorem strict_of_le {items : List α} (hle : items.Pairwise fun x y => decide (key x ≤ key y))
    (hkeys : (items.map key).Nodup) : items.Pairwise fun x y => key x < key y := by
  refine (hle.and (List.pairwise_map.1 hkeys)).imp fun {x y} hxy => ?_
  exact Std.lt_of_le_of_ne (of_decide_eq_true hxy.1) hxy.2

theorem strict_of_sort {items : List α} (h : (items.map key).Nodup) :
    (items.mergeSort fun x y => decide (key x ≤ key y)).Pairwise fun x y => key x < key y := by
  have hperm := List.mergeSort_perm items fun x y => decide (key x ≤ key y)
  have hsorted := List.pairwise_mergeSort (keyLe_trans key) (keyLe_total key) items
  exact strict_of_le key hsorted ((hperm.map key).nodup_iff.2 h)

theorem eq_of_strict_perm {items others : List α} (hp : items.Perm others)
    (hi : items.Pairwise fun x y => key x < key y)
    (ho : others.Pairwise fun x y => key x < key y) : items = others := by
  refine List.Perm.eq_of_pairwise ?_ hi ho hp
  intro x y _ _ hxy hyx
  exact absurd (List.lt_trans hxy hyx) (List.lt_irrefl _)

end Keys

theorem nodup_utf8 {texts : List String} (h : texts.Nodup) : (texts.map utf8).Nodup := by
  refine List.pairwise_map.2 (h.imp fun hne heq => ?_)
  exact hne (utf8_injective heq)

end DirDigest
