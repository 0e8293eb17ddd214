import Openmoko.Opkg.Proof.ActiveListForest

/-!
# Forward traversal

What is still to come of a forward run depends only on the address that the last node's `next`
holds. After the last node of a list this is the list head, from which the run climbs to the node
that the list belongs to; so the run through a list is its postorder and then what follows the
list.
-/

namespace Openmoko.Opkg

variable {N : Type} {c : Children N} {head : N}

inductive FirstLeaf (c : Children N) : N → N → Prop where
  | leaf {x : N} (hnone : c (.depend x) = []) : FirstLeaf c x x
  | down {x y z : N} {ys : List N} (hfirst : c (.depend x) = y :: ys) (hleaf : FirstLeaf c y z) :
      FirstLeaf c x z

theorem FirstLeaf.unique {x z z' : N} (hz : FirstLeaf c x z) (hz' : FirstLeaf c x z') : z = z' := by
  induction hz with
  | leaf hnone =>
    cases hz' with
    | leaf _ => rfl
    | down hfirst _ => simp [hnone] at hfirst
  | down hfirst _ ih =>
    cases hz' with
    | leaf hnone => simp [hnone] at hfirst
    | down hfirst' hleaf' =>
      rw [hfirst] at hfirst'
      obtain ⟨rfl, -⟩ := List.cons.inj hfirst'
      exact ih hleaf'

inductive Follows (h : ActiveHeap N) (c : Children N) (head : N) : ListHead N → List N → Prop where
  | stop : Follows h c head (.node head) []
  | climb {p : N} {rest : List N} (hrest : Follows h c head (h.links.next (.node p)) rest) :
      Follows h c head (.depend p) (p :: rest)
  | visit {x z : N} {rest : List N} (hx : x ≠ head) (hleaf : FirstLeaf c x z)
      (hrest : Follows h c head (h.links.next (.node z)) rest) :
      Follows h c head (.node x) (z :: rest)

variable {h : ActiveHeap N}

variable {a : ListHead N}

theorem Follows.unique {L L' : List N} (hL : Follows h c head a L)
    (hL' : Follows h c head a L') : L = L' := by
  induction hL generalizing L' with
  | stop =>
    cases hL' with
    | stop => rfl
    | visit hx _ _ => exact absurd rfl hx
  | climb _ ih =>
    cases hL' with
    | climb hrest' => rw [ih hrest']
  | visit hx hleaf _ ih =>
    cases hL' with
    | stop => exact absurd rfl hx
    | visit _ hleaf' hrest' =>
      obtain rfl := hleaf.unique hleaf'
      rw [ih hrest']

theorem Follows.after {before rest : List N} {z : N}
    (hL : Follows h c head a (before ++ z :: rest)) :
    Follows h c head (h.links.next (.node z)) rest := by
  induction before generalizing a with
  | nil => cases hL <;> assumption
  | cons y before ih => cases hL <;> exact ih ‹_›

theorem Follows.nodup {L : List N} (hL : Follows h c head a L) : L.Nodup := by
  induction L generalizing a with
  | nil => exact List.nodup_nil
  | cons z L ih =>
    have hsplit : Follows h c head a ([] ++ z :: L) := hL
    have hrest : Follows h c head (h.links.next (.node z)) L := hsplit.after
    refine List.nodup_cons.mpr ⟨?_, ih hrest⟩
    intro hmem
    obtain ⟨before, rest, heq⟩ := List.append_of_mem hmem
    have hagain : L = rest := hrest.unique (Follows.after (heq ▸ hrest))
    have hlength := congrArg List.length heq
    rw [← hagain, List.length_append, List.length_cons] at hlength
    omega

theorem HoldsForest.depend_ring (hh : HoldsForest head h c) (x : N) :
    h.links.Segment (.depend x) (ringContent c (.depend x)) (.depend x) :=
  hh.rings.ring _ fun _ => depend_notMem_ringContent

theorem HoldsForest.head_ring (hh : HoldsForest head h c) :
    h.links.Segment (.node head) (ringContent c (.node head)) (.node head) := by
  apply hh.rings.ring
  intro b hmem
  exact hh.forest.head_free b (mem_ringContent.mp hmem)

theorem HoldsForest.ne_head (hh : HoldsForest head h c) {x : N} (hx : x ∈ c a) : x ≠ head := by
  rintro rfl
  exact hh.forest.head_free a hx

/-- **One list.** A run that reaches the list visits its postorder, and goes on after it. -/
theorem Postorder.follows (hh : HoldsForest head h c) {xs out : List N}
    (hpost : Postorder c xs out) {b : ListHead N}
    (hseg : h.links.Segment a (xs.map .node) b) (hxs : ∀ x ∈ xs, x ≠ head) {rest : List N}
    (hrest : Follows h c head b rest) : Follows h c head (h.links.next a) (out ++ rest) := by
  induction hpost generalizing a b rest with
  | nil =>
    rw [hseg.next_eq]
    exact hrest
  | @cons x below xs later hbelow hlater ihbelow ihlater =>
    rw [List.map_cons, Links.segment_cons] at hseg
    have hafter := ihlater hseg.2 (fun y hy => hxs y (List.mem_cons_of_mem x hy)) hrest
    have hdepends := ihbelow (hh.depend_ring x) (fun y hy => hh.ne_head hy) (.climb hafter)
    have hring := (hh.depend_ring x).next_eq
    rw [hseg.1.1, List.append_assoc, List.cons_append]
    have hx : x ≠ head := hxs x List.mem_cons_self
    cases hlist : c (.depend x) with
    | nil =>
      rw [hlist] at hbelow
      cases hbelow
      exact .visit hx (.leaf hlist) hafter
    | cons y ys =>
      rw [ringContent, hlist] at hring
      have hfirst : h.links.next (.depend x) = .node y := hring
      rw [hfirst] at hdepends
      have hy : y ≠ head := hh.ne_head (hlist ▸ List.mem_cons_self)
      -- The descent from `x` begins with the descent from its first depend.
      generalize hrun : below ++ x :: (later ++ rest) = run at hdepends ⊢
      cases hdepends with
      | stop => exact absurd rfl hy
      | visit _ hleaf hgo => exact .visit hx (.down hlist hleaf) hgo

theorem HoldsForest.depended_of_next (hh : HoldsForest head h c) {x p : N}
    (hnext : h.links.next (.node x) = .depend p) : h.depended x = some p := by
  have hmem := hh.rings.mem_of_next (fun _ => depend_notMem_ringContent) (by simp) hnext
  exact hh.depended x _ (mem_ringContent.mp hmem)

variable [DecidableEq N]

theorem firstLeaf_eq (hh : HoldsForest head h c) {x z : N} (hleaf : FirstLeaf c x z) :
    ∃ enough, ∀ fuel ≥ enough, firstLeaf h fuel (.node x) = .ok (.node z) := by
  induction hleaf with
  | @leaf x hnone =>
    refine ⟨1, fun fuel hfuel => ?_⟩
    obtain ⟨fuel, rfl⟩ := Nat.exists_eq_add_of_le' hfuel
    have hring := (hh.depend_ring x).next_eq
    rw [ringContent, hnone] at hring
    have hself : h.links.next (.depend x) = .depend x := hring
    rw [firstLeaf_node, hself, if_neg (not_not.mpr rfl)]
  | @down x y z ys hfirst _ ih =>
    obtain ⟨enough, henough⟩ := ih
    refine ⟨enough + 1, fun fuel hfuel => ?_⟩
    obtain ⟨fuel, rfl⟩ := Nat.exists_eq_add_of_le' (le_trans (Nat.le_add_left 1 enough) hfuel)
    have hring := (hh.depend_ring x).next_eq
    rw [ringContent, hfirst] at hring
    have hnext : h.links.next (.depend x) = .node y := hring
    rw [firstLeaf_node, hnext, if_pos (by simp)]
    exact henough fuel (by omega)

theorem iterate_next (hh : HoldsForest head h c) {x : N} {L : List N}
    (hL : Follows h c head (h.links.next (.node x)) L) :
    ∃ enough, ∀ limit ≥ enough, ∀ fuel ≥ enough,
      iterate (activeListNext h limit head) fuel (some (.node x)) = .ok (L.map .node) := by
  generalize hnext : h.links.next (.node x) = a at hL
  induction hL generalizing x with
  | stop =>
    refine ⟨1, fun limit _ fuel hfuel => ?_⟩
    obtain ⟨fuel, rfl⟩ := Nat.exists_eq_add_of_le' hfuel
    have hstep : activeListNext h limit head (some (.node x)) = .ok none := by
      rw [activeListNext_node, if_pos hnext]
    exact iterate_of_none hstep fuel
  | @climb p rest _ ih =>
    obtain ⟨enough, henough⟩ := ih rfl
    refine ⟨enough + 1, fun limit hlimit fuel hfuel => ?_⟩
    obtain ⟨fuel, rfl⟩ := Nat.exists_eq_add_of_le' (le_trans (Nat.le_add_left 1 enough) hfuel)
    have hstep : activeListNext h limit head (some (.node x)) = .ok (some (.node p)) := by
      rw [activeListNext_node, hnext, hh.depended_of_next hnext, if_neg (by simp),
        if_pos (by rfl)]
      rfl
    exact iterate_of_some hstep (henough limit (by omega) fuel (by omega))
  | @visit y z rest hy hleaf _ ih =>
    obtain ⟨deep, hdeep⟩ := firstLeaf_eq hh hleaf
    obtain ⟨enough, henough⟩ := ih rfl
    refine ⟨enough + deep + 1, fun limit hlimit fuel hfuel => ?_⟩
    obtain ⟨fuel, rfl⟩ := Nat.exists_eq_add_of_le' (le_trans (by omega : 1 ≤ _) hfuel)
    have hstep : activeListNext h limit head (some (.node x)) = .ok (some (.node z)) := by
      have hnode : (h.depended x).map ListHead.depend ≠ some (.node y) := by simp
      rw [activeListNext_node, hnext, if_neg (by simpa using hy), if_neg hnode,
        hdeep limit (by omega)]
      rfl
    exact iterate_of_some hstep (henough limit (by omega) fuel (by omega))

theorem HoldsForest.forward_eq (hh : HoldsForest head h c) {order : List N}
    (hpost : Postorder c (c (.node head)) order) :
    Follows h c head (h.links.next (.node head)) order ∧
      ∃ enough, ∀ fuel ≥ enough, forward h head fuel = .ok (order.map .node) := by
  have hrun := hpost.follows hh hh.head_ring (fun x hx => hh.ne_head hx) .stop
  rw [List.append_nil] at hrun
  obtain ⟨enough, henough⟩ := iterate_next hh hrun
  exact ⟨hrun, enough, fun fuel hfuel => henough fuel hfuel fuel hfuel⟩

/-- **Forward traversal.** Whatever calls built the forest, going on with `active_list_next` from
the head ends, visits each node that hangs from the head once, each after everything below it, and
the nodes of each list in the order in which they were put there. -/
theorem active_list_next_postorder (calls : List (Call head)) :
    ∃ order : List N,
      (∃ enough, ∀ fuel ≥ enough, forward (built calls) head fuel = .ok (order.map .node)) ∧
      order.Nodup ∧
      (∀ x, x ∈ order ↔ Hangs (shape calls) head x) ∧
      (∀ x y, x ∈ order → Relation.TransGen (DependOf (shape calls)) y x →
        [y, x].Sublist order) ∧
      (shape calls (.node head)).Sublist order ∧
      ∀ x ∈ order, (shape calls (.depend x)).Sublist order := by
  have hh := holdsForest_built calls
  obtain ⟨order, hpost⟩ := hh.forest.exists_postorder
  obtain ⟨hrun, hforward⟩ := hh.forward_eq hpost
  exact ⟨order, hforward, hrun.nodup, hpost.mem_iff_hangs, fun _ _ => hpost.below_before,
    hpost.siblings, fun _ => hpost.depends_sublist⟩

end Openmoko.Opkg
