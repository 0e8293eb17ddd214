import Openmoko.Opkg.Proof.ActiveListNext

/-!
# Backward traversal

Going back from a node without depends that is the first of its list, `active_list_prev` steps to
what is before the node that the list belongs to. It climbs one list only: where that node is itself
the first of a depend list, what is before it is a list head in the middle of a structure.
-/

namespace Openmoko.Opkg

variable {N : Type} {c : Children N} {head : N} {h : ActiveHeap N}

def climbOnce (h : ActiveHeap N) : ListHead N → ListHead N
  | .node x => .node x
  | .depend p => h.links.prev (.node p)

/-- The nodes that a backward run visits from the address that the last call came to. -/
inductive Precedes (h : ActiveHeap N) (c : Children N) (head : N) : ListHead N → List N → Prop where
  | stop : Precedes h c head (.node head) []
  | leaf {x : N} {rest : List N} (hx : x ≠ head) (hnone : c (.depend x) = [])
      (hrest : Precedes h c head (climbOnce h (h.links.prev (.node x))) rest) :
      Precedes h c head (.node x) (x :: rest)
  | inner {x : N} {rest : List N} (hx : x ≠ head) (hsome : c (.depend x) ≠ [])
      (hrest : Precedes h c head (h.links.prev (.depend x)) rest) :
      Precedes h c head (.node x) (x :: rest)

/-- The head itself has no depends, and no first depend of a node that hangs from the head has
depends of its own. -/
def ShallowFirst (c : Children N) (head : N) : Prop :=
  c (.depend head) = [] ∧
    ∀ q p, Hangs c head q → (c (.depend q)).head? = some p → c (.depend p) = []

variable {x : N} {a : ListHead N} {ptr : ActivePtr N}

theorem HoldsForest.depended_of_prev (hh : HoldsForest head h c) {p : N}
    (hprev : h.links.prev (.node x) = .depend p) :
    (c (.depend p)).head? = some x ∧ h.depended x = some p := by
  have hfirst := hh.rings.mem_of_prev (fun _ => depend_notMem_ringContent) (by simp) hprev
  rw [ringContent, List.head?_map, Option.map_eq_some_iff] at hfirst
  obtain ⟨y, hy, heq⟩ := hfirst
  obtain rfl := ListHead.node.inj heq
  exact ⟨hy, hh.depended y _ (List.mem_of_mem_head? hy)⟩

theorem HoldsForest.prev_depend (hh : HoldsForest head h c) (x : N) :
    h.links.prev (.depend x) = ((c (.depend x)).getLast?.map .node).getD (.depend x) := by
  rw [(hh.depend_ring x).prev_eq, ringContent, List.getLast?_map]

/-- **One list, backwards.** A run that comes to the end of the list visits the reverse of its
postorder, and then what comes before the list. -/
theorem Postorder.precedes (hh : HoldsForest head h c) (hshallow : ShallowFirst c head)
    {xs out : List N} (hpost : Postorder c xs out) {b : ListHead N}
    (hseg : h.links.Segment a (xs.map .node) b) (hxs : ∀ x ∈ xs, Hangs c head x) {rest : List N}
    (hrest : Precedes h c head (climbOnce h a) rest) :
    Precedes h c head ((xs.getLast?.map .node).getD (climbOnce h a)) (out.reverse ++ rest) := by
  induction hpost generalizing a b rest with
  | nil => exact hrest
  | @cons x below xs later hbelow hlater ihbelow ihlater =>
    rw [List.map_cons, Links.segment_cons] at hseg
    have hhang : Hangs c head x := hxs x List.mem_cons_self
    have hx : x ≠ head := by
      cases hhang with
      | top hmem => exact hh.ne_head hmem
      | dep _ hmem => exact hh.ne_head hmem
    have hnode : Precedes h c head (.node x) (x :: (below.reverse ++ rest)) := by
      by_cases hnone : c (.depend x) = []
      · rw [hnone] at hbelow
        cases hbelow
        apply Precedes.leaf hx hnone
        rw [hseg.1.2]
        exact hrest
      · apply Precedes.inner hx hnone
        -- `x` has depends, so it is not the first of a depend list.
        have hclimb : climbOnce h a = a := by
          cases a with
          | node y => rfl
          | depend p =>
            have hfirst := (hh.depended_of_prev hseg.1.2).1
            have hp : Hangs c head p := by
              cases hhang with
              | top hmem =>
                cases hh.forest.unique x _ _ hmem (List.mem_of_mem_head? hfirst)
              | dep hp hmem =>
                cases hh.forest.unique x _ _ hmem (List.mem_of_mem_head? hfirst)
                exact hp
            exact absurd (hshallow.2 p x hp hfirst) hnone
        have hstart : Precedes h c head (climbOnce h (.depend x)) rest := by
          rw [climbOnce, hseg.1.2, ← hclimb]
          exact hrest
        have hlast := ihbelow (hh.depend_ring x) (fun y hy => hhang.dep hy) hstart
        rw [hh.prev_depend x]
        rw [List.getLast?_eq_some_getLast hnone] at hlast ⊢
        exact hlast
    have hafter := ihlater hseg.2 (fun y hy => hxs y (List.mem_cons_of_mem x hy)) hnode
    rw [List.reverse_append, List.reverse_cons, List.append_assoc, List.append_assoc,
      List.singleton_append]
    cases hlast : xs.getLast? with
    | none =>
      rw [hlast] at hafter
      rw [List.getLast?_eq_none_iff] at hlast
      rw [hlast]
      exact hafter
    | some y =>
      rw [hlast] at hafter
      rw [List.getLast?_cons, hlast]
      exact hafter

theorem Postorder.firstLeaf {xs out : List N} (hpost : Postorder c xs out)
    (hx : xs.head? = some x) : ∃ z, FirstLeaf c x z := by
  induction hpost generalizing x with
  | nil => cases hx
  | @cons y below xs later hbelow _ ihbelow _ =>
    obtain rfl : y = x := by simpa using hx
    cases hlist : c (.depend y) with
    | nil => exact ⟨y, .leaf hlist⟩
    | cons w ws =>
      obtain ⟨z, hz⟩ := ihbelow (x := w) (by rw [hlist]; rfl)
      exact ⟨z, .down hlist hz⟩

theorem Postorder.exists_below {xs out : List N} (hpost : Postorder c xs out)
    (hx : x ∈ out) : ∃ below, Postorder c (c (.depend x)) below := by
  induction hpost with
  | nil => cases hx
  | cons hbelow hlater ihbelow ihlater =>
    rcases List.mem_append.mp hx with hmem | hmem
    · exact ihbelow hmem
    rcases List.mem_cons.mp hmem with rfl | hmem
    · exact ⟨_, hbelow⟩
    · exact ihlater hmem

theorem HoldsForest.prev_of_firstLeaf (hh : HoldsForest head h c) {p q z : N}
    (hleaf : FirstLeaf c p z) (hprev : h.links.prev (.node p) = .depend q)
    (hsome : c (.depend p) ≠ []) :
    c (.depend z) = [] ∧
      ∃ v u, h.links.prev (.node z) = .depend v ∧ h.links.prev (.node v) = .depend u := by
  induction hleaf generalizing q with
  | leaf hnone => exact absurd hnone hsome
  | @down x y z ys hfirst hleaf ih =>
    have hring := hh.depend_ring x
    rw [ringContent, hfirst, List.map_cons, Links.segment_cons] at hring
    have hy : h.links.prev (.node y) = .depend x := hring.1.2
    cases hleaf with
    | leaf hnone => exact ⟨hnone, x, q, hy, hprev⟩
    | down hfirst' hleaf' =>
      exact ih hy (by simp [hfirst'])

theorem iterate_cases {step : ActivePtr N → Except ActiveFault (ActivePtr N)} {fuel : ℕ}
    {L : List (ListHead N)} (hrun : iterate step (fuel + 1) ptr = .ok L) :
    (step ptr = .ok none ∧ L = []) ∨
      ∃ q rest, step ptr = .ok (some q) ∧ iterate step fuel (some q) = .ok rest ∧ L = q :: rest := by
  rw [iterate] at hrun
  cases hstep : step ptr with
  | error e =>
    rw [hstep] at hrun
    cases hrun
  | ok result =>
    rw [hstep] at hrun
    cases result with
    | none =>
      cases hrun
      exact Or.inl ⟨rfl, rfl⟩
    | some q =>
      change (iterate step fuel (some q)).bind _ = _ at hrun
      cases hrest : iterate step fuel (some q) with
      | error e =>
        rw [hrest] at hrun
        cases hrun
      | ok rest =>
        rw [hrest] at hrun
        cases hrun
        exact Or.inr ⟨q, rest, rfl, hrest, rfl⟩

theorem iterate_mem {step : ActivePtr N → Except ActiveFault (ActivePtr N)} {fuel : ℕ}
    {L : List (ListHead N)} (hrun : iterate step fuel ptr = .ok L) (ha : a ∈ L) :
    step (some a) = .ok none ∨ ∃ b ∈ L, step (some a) = .ok (some b) := by
  induction fuel generalizing ptr L with
  | zero => cases hrun
  | succ fuel ih =>
    rcases iterate_cases hrun with ⟨-, rfl⟩ | ⟨q, rest, -, hrest, rfl⟩
    · cases ha
    rcases List.mem_cons.mp ha with rfl | hmem
    · cases fuel with
      | zero => cases hrest
      | succ fuel =>
        rcases iterate_cases hrest with ⟨hend, -⟩ | ⟨b, later, hgo, -, rfl⟩
        · exact Or.inl hend
        · exact Or.inr ⟨b, by simp, hgo⟩
    · rcases ih hrest hmem with hend | ⟨b, hb, hgo⟩
      · exact Or.inl hend
      · exact Or.inr ⟨b, List.mem_cons_of_mem q hb, hgo⟩

theorem FirstLeaf.hangs {z : N} (hleaf : FirstLeaf c x z) (hx : Hangs c head x) :
    Hangs c head z := by
  induction hleaf with
  | leaf _ => exact hx
  | down hfirst _ ih => exact ih (hx.dep (hfirst ▸ List.mem_cons_self))

theorem HoldsForest.notMem_of_head (hh : HoldsForest head h c)
    (hx : x ∈ c (.depend head)) : ¬Hangs c head x := by
  intro hhang
  cases hhang with
  | top hmem => cases hh.forest.unique x _ _ hx hmem
  | dep hp hmem =>
    cases hh.forest.unique x _ _ hx hmem
    cases hp with
    | top hhead => exact hh.forest.head_free _ hhead
    | dep _ hhead => exact hh.forest.head_free _ hhead

variable [DecidableEq N]

theorem activeListPrev_leaf (hh : HoldsForest head h c) (hhead : c (.depend head) = [])
    (hnone : c (.depend x) = []) :
    activeListPrev h head (some (.node x)) =
      if climbOnce h (h.links.prev (.node x)) = .node head then .ok none
      else .ok (some (climbOnce h (h.links.prev (.node x)))) := by
  have hring : h.links.prev (.depend x) = .depend x := by
    rw [hh.prev_depend x, hnone]
    rfl
  apply activeListPrev_of_leaf hring
  cases hprev : h.links.prev (.node x) with
  | node y => cases h.depended x <;> simp [climbOnce]
  | depend p =>
    obtain ⟨hfirst, hdepended⟩ := hh.depended_of_prev hprev
    have hp : p ≠ head := by
      rintro rfl
      rw [hhead] at hfirst
      cases hfirst
    simp [hdepended, hp, climbOnce]

theorem iterate_prev (hh : HoldsForest head h c) (hhead : c (.depend head) = []) {L : List N}
    (hL : Precedes h c head a L)
    (hstep : activeListPrev h head ptr = if a = .node head then .ok none else .ok (some a)) :
    ∃ enough, ∀ fuel ≥ enough,
      iterate (activeListPrev h head) fuel ptr = .ok (L.map .node) := by
  induction hL generalizing ptr with
  | stop =>
    refine ⟨1, fun fuel hfuel => ?_⟩
    obtain ⟨fuel, rfl⟩ := Nat.exists_eq_add_of_le' hfuel
    rw [if_pos rfl] at hstep
    exact iterate_of_none hstep fuel
  | @leaf x rest hx hnone _ ih =>
    obtain ⟨enough, henough⟩ := ih (activeListPrev_leaf hh hhead hnone)
    refine ⟨enough + 1, fun fuel hfuel => ?_⟩
    obtain ⟨fuel, rfl⟩ := Nat.exists_eq_add_of_le' (le_trans (Nat.le_add_left 1 enough) hfuel)
    rw [if_neg (by simpa using hx)] at hstep
    exact iterate_of_some hstep (henough fuel (by omega))
  | @inner x rest hx hsome _ ih =>
    have hlast : h.links.prev (.depend x) = .node ((c (.depend x)).getLast hsome) := by
      rw [hh.prev_depend x, List.getLast?_eq_some_getLast hsome]
      rfl
    have hnext : activeListPrev h head (some (.node x)) =
        if h.links.prev (.depend x) = .node head then .ok none
        else .ok (some (h.links.prev (.depend x))) := by
      have hmem := hh.ne_head (List.getLast_mem hsome)
      rw [activeListPrev_of_depends (by simp [hlast]), if_neg (by simpa [hlast] using hmem)]
    obtain ⟨enough, henough⟩ := ih hnext
    refine ⟨enough + 1, fun fuel hfuel => ?_⟩
    obtain ⟨fuel, rfl⟩ := Nat.exists_eq_add_of_le' (le_trans (Nat.le_add_left 1 enough) hfuel)
    rw [if_neg (by simpa using hx)] at hstep
    exact iterate_of_some hstep (henough fuel (by omega))

theorem HoldsForest.backward_eq (hh : HoldsForest head h c) (hshallow : ShallowFirst c head)
    {order : List N} (hpost : Postorder c (c (.node head)) order) :
    ∃ enough, ∀ fuel ≥ enough, backward h head fuel = .ok (order.reverse.map .node) := by
  have hrun := hpost.precedes hh hshallow hh.head_ring (fun x hx => .top hx) .stop
  rw [List.append_nil] at hrun
  apply iterate_prev hh hshallow.1 hrun
  rw [activeListPrev_leaf hh hshallow.1 hshallow.1, hh.head_ring.prev_eq, ringContent,
    List.getLast?_map]
  cases (c (.node head)).getLast? <;> rfl

/-- **Backward traversal.** Going on with `active_list_prev` from the head gives the reverse of the
forward order exactly when the head has no depends and no first depend has depends of its own. -/
theorem active_list_prev_reverses_iff (calls : List (Call head)) :
    (∃ order : List (ListHead N),
      (∃ enough, ∀ fuel ≥ enough, forward (built calls) head fuel = .ok order) ∧
      ∃ enough, ∀ fuel ≥ enough, backward (built calls) head fuel = .ok order.reverse) ↔
    ShallowFirst (shape calls) head := by
  have hh := holdsForest_built calls
  obtain ⟨order, hpost⟩ := hh.forest.exists_postorder
  obtain ⟨-, enough, hforward⟩ := hh.forward_eq hpost
  constructor
  · rintro ⟨order', ⟨enough', hforward'⟩, back, hbackward⟩
    -- Both runs are over the nodes that hang from the head.
    have horder : order' = order.map .node := by
      have hrun := hforward (max enough enough') (le_max_left _ _)
      rw [hforward' _ (le_max_right _ _)] at hrun
      exact Except.ok.inj hrun
    have hrun := hbackward (back + 1) (Nat.le_succ back)
    rw [horder, ← List.map_reverse] at hrun
    have hhead : shape calls (.depend head) = [] := by
      by_contra hsome
      have hlast : (built calls).links.prev (.depend head) =
          .node ((shape calls (.depend head)).getLast hsome) := by
        rw [hh.prev_depend, List.getLast?_eq_some_getLast hsome]
        rfl
      have hstep : activeListPrev (built calls) head (some (.node head)) =
          .ok (some (.node ((shape calls (.depend head)).getLast hsome))) := by
        rw [activeListPrev_of_depends (by simp [hlast]), hlast]
      rcases iterate_cases hrun with ⟨hend, -⟩ | ⟨q, rest, hgo, -, heq⟩
      · rw [hstep] at hend
        cases hend
      · rw [hstep] at hgo
        cases hgo
        have hmem : (shape calls (.depend head)).getLast hsome ∈ order := by
          have hin := heq ▸ List.mem_cons_self (a := ListHead.node _) (l := rest)
          simpa using hin
        exact hh.notMem_of_head (List.getLast_mem hsome) ((hpost.mem_iff_hangs _).mp hmem)
    refine ⟨hhead, fun q p hq hfirst => ?_⟩
    by_contra hsome
    have hp : p ∈ shape calls (.depend q) := List.mem_of_mem_head? hfirst
    have hprev : (built calls).links.prev (.node p) = .depend q := by
      obtain ⟨ys, hys⟩ := List.head?_eq_some_iff.mp hfirst
      have hring := hh.depend_ring q
      rw [ringContent, hys, List.map_cons, Links.segment_cons] at hring
      exact hring.1.2
    obtain ⟨below, hbelow⟩ := hpost.exists_below ((hpost.mem_iff_hangs p).mpr (hq.dep hp))
    obtain ⟨z, hleaf⟩ := (Postorder.cons hbelow .nil).firstLeaf rfl
    obtain ⟨hnone, v, u, hz, hv⟩ := hh.prev_of_firstLeaf hleaf hprev hsome
    have hstep := activeListPrev_leaf hh hhead hnone
    rw [hz, climbOnce, hv, if_neg (by simp)] at hstep
    have hzmem : .node z ∈ order.reverse.map ListHead.node := by
      have hzorder := (hpost.mem_iff_hangs z).mpr (hleaf.hangs (hq.dep hp))
      simpa using hzorder
    rcases iterate_mem hrun hzmem with hend | ⟨b, hb, hgo⟩
    · rw [hstep] at hend
      cases hend
    · rw [hstep] at hgo
      cases hgo
      simp at hb
  · intro hshallow
    obtain ⟨back, hbackward⟩ := hh.backward_eq hshallow hpost
    refine ⟨order.map .node, ⟨enough, hforward⟩, back, fun fuel hfuel => ?_⟩
    rw [hbackward fuel hfuel, List.map_reverse]

/-- A node with a depend that has a depend: from the deepest one the way back leads to the inside of
the first. -/
theorem active_list_prev_chain :
    ¬∃ order : List (ListHead ℕ),
      (∃ enough, ∀ fuel ≥ enough, forward (@built ℕ _ 0 [.add 1 (by decide),
        .addDepend 1 2 (by decide), .addDepend 2 3 (by decide)]) 0 fuel = .ok order) ∧
      ∃ enough, ∀ fuel ≥ enough, backward (@built ℕ _ 0 [.add 1 (by decide),
        .addDepend 1 2 (by decide), .addDepend 2 3 (by decide)]) 0 fuel = .ok order.reverse := by
  rintro ⟨order, -, enough, hbackward⟩
  have hrun := hbackward (enough + 6) (by omega)
  cases hrun

end Openmoko.Opkg
