import Openmoko.Opkg.Proof.BestCandidate
import Openmoko.Opkg.Upgrade

/-!
# What the upgrade list contains

Both lists are flat rings. The node that the loop goes on from after a move is the one before it, so
the rest of the list that it goes through is met as if nothing had been moved. Whether a package is
moved is up to the choice of the best candidate: it may fall on an older one that was provided by
hand, and where there is no candidate of the name on a package of another.
-/

namespace Openmoko.Opkg

variable {P : Type}

abbrev listAddr (pkg : P) : ListHead (UpgradeNode P) := .node (.list pkg)

variable {fuel : ℕ}

section Flat

variable [DecidableEq P]

def IsBare (heap : ActiveHeap (UpgradeNode P)) (pkg : P) : Prop :=
  heap.links.Linked (.depend (.list pkg)) (.depend (.list pkg))

variable {heap : ActiveHeap (UpgradeNode P)} {a : UpgradeNode P} {todo : List P}

theorem next_of_flat (kept : List P) (ha : ∀ pkg : P, a ≠ .list pkg)
    (hseg : heap.links.Segment (.node a) ((kept ++ todo).map listAddr) (.node a))
    (hbare : ∀ pkg ∈ todo, IsBare heap pkg) (fuel : ℕ) :
    activeListNext heap (fuel + 1) a (kept.getLast?.map listAddr) =
      .ok (todo.head?.map listAddr) := by
  have hat : activeListNext heap (fuel + 1) a (kept.getLast?.map listAddr) =
      activeListNext heap (fuel + 1) a (some (.node (kept.getLast?.elim a .list))) := by
    cases kept.getLast? <;> rfl
  have hnext : heap.links.next (.node (kept.getLast?.elim a .list)) =
      (todo.map listAddr).head?.getD (.node a) := by
    rw [List.map_append] at hseg
    rw [← hseg.next_getLast, List.getLast?_map]
    cases kept.getLast? <;> rfl
  rw [hat, activeListNext_node, hnext]
  cases todo with
  | nil => exact if_pos rfl
  | cons pkg todo =>
    have hhead : listAddr pkg ≠ .node a := fun heq => ha pkg (ListHead.node.inj heq).symm
    have hdepended : (heap.depended (kept.getLast?.elim a .list)).map ListHead.depend ≠
        some (listAddr pkg) := by
      cases heap.depended (kept.getLast?.elim a .list) <;> simp
    simp only [List.map_cons, List.head?_cons, Option.getD_some, Option.map_some]
    rw [if_neg hhead, if_neg hdepended, firstLeaf_node]
    rw [if_neg (not_not.mpr (hbare pkg List.mem_cons_self).1)]
    rfl

theorem prev_of_flat {kept : List P} {pkg : P}
    (hseg : heap.links.Segment (.node a) ((kept ++ pkg :: todo).map listAddr) (.node a))
    (hbare : IsBare heap pkg) (hdepended : heap.depended (.list pkg) = some a)
    (hkept : ∀ q ∈ kept, listAddr q ≠ .node a) :
    activeListPrev heap a (some (listAddr pkg)) = .ok (kept.getLast?.map listAddr) := by
  have hprev : heap.links.prev (listAddr pkg) = (kept.getLast?.map listAddr).getD (.node a) := by
    rw [List.map_append, List.map_cons] at hseg
    rw [(Links.segment_append.mp hseg).1.prev_eq, List.getLast?_map]
  have hleaf : activeListPrev heap a (some (listAddr pkg)) =
      if heap.links.prev (listAddr pkg) = .node a then .ok none
      else .ok (some (heap.links.prev (listAddr pkg))) :=
    activeListPrev_of_leaf hbare.2 (by simp [hdepended])
  rw [hleaf, hprev]
  cases hlast : kept.getLast? with
  | none => exact if_pos rfl
  | some q => exact if_neg (hkept q (List.mem_of_getLast? hlast))

theorem forward_of_flat {list : List P} (ha : ∀ pkg : P, a ≠ .list pkg)
    (hseg : heap.links.Segment (.node a) (list.map listAddr) (.node a))
    (hbare : ∀ pkg ∈ list, IsBare heap pkg) (hfuel : list.length < fuel) :
    forward heap a fuel = .ok (list.map listAddr) := by
  obtain ⟨limit, rfl⟩ : ∃ limit, fuel = limit + 1 := ⟨fuel - 1, by omega⟩
  have hrun : ∀ (todo kept : List P) (ptr : ActivePtr (UpgradeNode P)) (n : ℕ),
      list = kept ++ todo → todo.length < n →
      activeListNext heap (limit + 1) a ptr =
        activeListNext heap (limit + 1) a (kept.getLast?.map listAddr) →
      iterate (activeListNext heap (limit + 1) a) n ptr = .ok (todo.map listAddr) := by
    intro todo
    induction todo with
    | nil =>
      rintro kept ptr n rfl hn hptr
      obtain ⟨n, rfl⟩ : ∃ m, n = m + 1 := ⟨n - 1, by simp at hn; omega⟩
      rw [next_of_flat kept ha hseg (fun pkg hpkg => absurd hpkg List.not_mem_nil)] at hptr
      exact iterate_of_none hptr n
    | cons pkg todo ih =>
      rintro kept ptr n rfl hn hptr
      obtain ⟨n, rfl⟩ : ∃ m, n = m + 1 := ⟨n - 1, by omega⟩
      have htodo : ∀ q ∈ pkg :: todo, IsBare heap q := by
        intro q hq
        exact hbare q (List.mem_append_right kept hq)
      rw [next_of_flat kept ha hseg htodo] at hptr
      refine iterate_of_some hptr (ih (kept ++ [pkg]) _ n (by simp) ?_ ?_)
      · simpa using hn
      · rw [List.getLast?_concat]
        rfl
  exact hrun list [] _ _ rfl hfuel rfl

theorem linked_reset {x : UpgradeNode P} {u v : ListHead (UpgradeNode P)}
    (hlinked : heap.links.Linked u v) (hu : u.owner ≠ x) (hv : v.owner ≠ x) :
    (activeListReset heap x).links.Linked u v := by
  have hne : ∀ w : ListHead (UpgradeNode P), w.owner ≠ x → w ≠ .node x ∧ w ≠ .depend x := by
    rintro w hw
    constructor <;> rintro rfl <;> exact hw rfl
  obtain ⟨hnext, hprev⟩ := hlinked
  simp [Links.Linked, activeListReset, initListHead, hne u hu, hne v hv, hnext, hprev]

def resetAll (heap : ActiveHeap (UpgradeNode P)) (pkgs : List P) : ActiveHeap (UpgradeNode P) :=
  pkgs.foldl (fun heap pkg => activeListReset heap (.list pkg)) heap

theorem linked_resetAll {pkgs : List P} {u v : ListHead (UpgradeNode P)}
    (hlinked : heap.links.Linked u v) (hu : ∀ pkg ∈ pkgs, u.owner ≠ .list pkg)
    (hv : ∀ pkg ∈ pkgs, v.owner ≠ .list pkg) : (resetAll heap pkgs).links.Linked u v := by
  induction pkgs generalizing heap with
  | nil => exact hlinked
  | cons pkg pkgs ih =>
    apply ih (linked_reset hlinked (hu pkg List.mem_cons_self) (hv pkg List.mem_cons_self))
    · exact fun q hq => hu q (List.mem_cons_of_mem pkg hq)
    · exact fun q hq => hv q (List.mem_cons_of_mem pkg hq)

theorem listHeadClear_of_flat {head : ListHead (UpgradeNode P)} {todo : List P}
    (hnodup : todo.Nodup) (hhead : ∀ pkg, listAddr pkg ≠ head)
    (hnext : ∀ xs pkg ys, todo = xs ++ pkg :: ys →
      heap.links.next (listAddr pkg) = (ys.map listAddr).head?.getD head)
    (hbare : ∀ pkg ∈ todo, IsBare heap pkg) (hfuel : todo.length < fuel) :
    listHeadClear fuel head ((todo.map listAddr).head?.getD head) heap =
      .ok (resetAll heap todo) := by
  induction todo generalizing fuel heap with
  | nil =>
    obtain ⟨fuel, rfl⟩ : ∃ m, fuel = m + 1 := ⟨fuel - 1, by simp at hfuel; omega⟩
    exact if_pos rfl
  | cons pkg todo ih =>
    obtain ⟨fuel, rfl⟩ : ∃ m, fuel = m + 1 := ⟨fuel - 1, by omega⟩
    obtain ⟨hpkg, hnodup⟩ := List.nodup_cons.mp hnodup
    have hleaf := not_not.mpr (hbare pkg List.mem_cons_self).1
    simp only [List.map_cons, List.head?_cons, Option.getD_some]
    rw [listHeadClear, if_neg (hhead pkg)]
    change (if _ then _ else _ : Except ActiveFault _).bind _ = _
    rw [if_neg hleaf]
    change listHeadClear fuel head (heap.links.next (listAddr pkg)) _ = _
    rw [hnext [] pkg todo rfl]
    apply ih hnodup _ _ (by simpa using hfuel)
    · rintro xs q ys rfl
      have hq : q ≠ pkg := by
        rintro rfl
        exact hpkg (List.mem_append_right xs List.mem_cons_self)
      rw [← hnext (pkg :: xs) q ys rfl]
      simp [activeListReset, initListHead, hq]
    · intro q hq
      have hne : UpgradeNode.list q ≠ .list pkg := by
        intro heq
        exact hpkg (UpgradeNode.list.inj heq ▸ hq)
      exact linked_reset (hbare q (List.mem_cons_of_mem pkg hq)) hne hne

end Flat

def upgradeRings (upgrades rest : List P) :
    ListHead (UpgradeNode P) → List (ListHead (UpgradeNode P))
  | .node .head => upgrades.map listAddr
  | .node .all => rest.map listAddr
  | _ => []

structure HoldsLists (heap : ActiveHeap (UpgradeNode P)) (upgrades rest : List P) : Prop where
  rings : heap.links.Rings (upgradeRings upgrades rest)
  depended : ∀ pkg ∈ rest, heap.depended (.list pkg) = some .all

theorem exists_of_mem_upgradeRings {upgrades rest : List P} {u b : ListHead (UpgradeNode P)}
    (hu : u ∈ upgradeRings upgrades rest b) : ∃ pkg, listAddr pkg = u := by
  revert hu
  fun_cases upgradeRings upgrades rest b with
  | case1 => exact fun hu => (List.mem_map.mp hu).imp fun _ => And.right
  | case2 => exact fun hu => (List.mem_map.mp hu).imp fun _ => And.right
  | case3 => exact fun hu => absurd hu List.not_mem_nil

section Lists

variable {heap : ActiveHeap (UpgradeNode P)} {upgrades rest : List P}

theorem HoldsLists.depend_ring (h : HoldsLists heap upgrades rest) (x : UpgradeNode P) :
    heap.links.Linked (.depend x) (.depend x) := by
  apply Links.segment_nil.mp
  apply h.rings.ring (.depend x)
  intro b hmem
  obtain ⟨q, hq⟩ := exists_of_mem_upgradeRings hmem
  cases hq

theorem HoldsLists.head_ring (h : HoldsLists heap upgrades rest) :
    heap.links.Segment (.node .head) (upgrades.map listAddr) (.node .head) := by
  apply h.rings.ring (.node .head)
  intro b hmem
  obtain ⟨q, hq⟩ := exists_of_mem_upgradeRings hmem
  cases hq

theorem HoldsLists.all_ring (h : HoldsLists heap upgrades rest) :
    heap.links.Segment (.node .all) (rest.map listAddr) (.node .all) := by
  apply h.rings.ring (.node .all)
  intro b hmem
  obtain ⟨q, hq⟩ := exists_of_mem_upgradeRings hmem
  cases hq

theorem HoldsLists.nodup (h : HoldsLists heap upgrades rest) : (upgrades ++ rest).Nodup := by
  refine List.nodup_append'.mpr ⟨.of_map _ (h.rings.nodup (.node .head)),
    .of_map _ (h.rings.nodup (.node .all)), ?_⟩
  intro pkg hup hrest
  cases h.rings.unique (listAddr pkg) (.node .head) (.node .all)
    (List.mem_map_of_mem hup) (List.mem_map_of_mem hrest)

theorem holdsLists_init : HoldsLists (activeListInit : ActiveHeap (UpgradeNode P)) [] [] where
  rings := by
    have hnone : upgradeRings ([] : List P) [] = fun _ => [] := by
      funext b
      fun_cases upgradeRings ([] : List P) [] b <;> rfl
    rw [hnone]
    exact Links.rings_selfLinked
  depended pkg hpkg := absurd hpkg List.not_mem_nil

variable [DecidableEq P]

theorem filter_listAddr (pkg : P) (pkgs : List P) :
    (pkgs.map listAddr).filter (· ≠ listAddr pkg) = (pkgs.filter (· ≠ pkg)).map listAddr := by
  rw [List.filter_map]
  congr 2
  funext q
  simp

theorem upgradeRings_add (pkg : P) {a : UpgradeNode P} (ha : ∀ q : P, a ≠ .list q) :
    Links.appended (Links.removed (upgradeRings upgrades rest) (listAddr pkg)) (listAddr pkg)
        (.node a) =
      upgradeRings (upgrades.filter (· ≠ pkg) ++ if a = .head then [pkg] else [])
        (rest.filter (· ≠ pkg) ++ if a = .all then [pkg] else []) := by
  funext b
  have hfilter := filter_listAddr pkg
  rcases a with _ | _ | q
  · rcases b with (_ | _ | q) | q <;> simp_all [Links.appended, Links.removed, upgradeRings]
  · rcases b with (_ | _ | q) | q <;> simp_all [Links.appended, Links.removed, upgradeRings]
  · exact absurd rfl (ha q)

theorem HoldsLists.move (h : HoldsLists heap upgrades rest) (pkg : P) {a : UpgradeNode P}
    (ha : ∀ q : P, a ≠ .list q) :
    (activeListAdd heap a (.list pkg)).links.Rings
      (Links.appended (Links.removed (upgradeRings upgrades rest) (listAddr pkg)) (listAddr pkg)
        (.node a)) := by
  apply h.rings.move rfl
  · intro b hmem
    obtain ⟨q, hq⟩ := exists_of_mem_upgradeRings hmem
    exact ha q (ListHead.node.inj hq).symm
  · exact fun heq => ha pkg (ListHead.node.inj heq).symm

theorem HoldsLists.add_all (h : HoldsLists heap upgrades rest) (pkg : P) :
    HoldsLists (activeListAdd heap .all (.list pkg)) (upgrades.filter (· ≠ pkg))
      (rest.filter (· ≠ pkg) ++ [pkg]) where
  rings := by simpa [upgradeRings_add] using h.move pkg (a := .all) (by simp)
  depended q hq := by
    by_cases heq : q = pkg
    · simp [activeListAdd, heq]
    · have hmem : q ∈ rest := by simpa [heq] using hq
      simp [activeListAdd, heq, h.depended q hmem]

theorem HoldsLists.add_head (h : HoldsLists heap upgrades rest) (pkg : P) :
    HoldsLists (activeListAdd heap .head (.list pkg)) (upgrades.filter (· ≠ pkg) ++ [pkg])
      (rest.filter (· ≠ pkg)) where
  rings := by simpa [upgradeRings_add] using h.move pkg (a := .head) (by simp)
  depended q hq := by
    obtain ⟨hmem, hne⟩ := List.mem_filter.mp hq
    have hne : q ≠ pkg := by simpa using hne
    simp [activeListAdd, hne, h.depended q hmem]

variable {platform : Platform} {A : Type} [DecidableEq A]

def hasNewerCandidate (conf : UpgradeConf platform A P) (qsort : Qsort P) (pkg : P) : Bool :=
  (pkgHashFetchBestInstallationCandidateByName conf qsort (conf.pkg pkg).name).any fun new =>
    pkgCompareVersions platform (conf.pkg pkg).toPkgVersion (conf.pkg new).toPkgVersion < 0

variable (conf : UpgradeConf platform A P) (qsort : Qsort P)

theorem upgradeTurn_node (pkg : P) :
    upgradeTurn conf qsort (listAddr pkg) heap =
      if hasNewerCandidate conf qsort pkg then activeListMoveNode heap .all .head (.list pkg)
      else .ok (some (listAddr pkg), heap) := by
  have hpkg : pkgAt (listAddr pkg) = .ok pkg := rfl
  rw [hasNewerCandidate, upgradeTurn, hpkg]
  change Except.bind (.ok pkg) _ = _
  rw [Except.bind]
  cases pkgHashFetchBestInstallationCandidateByName conf qsort (conf.pkg pkg).name with
  | none => rfl
  | some new => simp only [Option.any_some, decide_eq_true_eq]; rfl

theorem upgradeLoop_eq (kept : List P) {todo : List P}
    (h : HoldsLists heap upgrades (kept ++ todo)) (hfuel : todo.length < fuel) :
    ∃ heap', upgradeLoop conf qsort fuel (todo.head?.map listAddr) heap = .ok heap' ∧
      HoldsLists heap' (upgrades ++ todo.filter (hasNewerCandidate conf qsort))
        (kept ++ todo.filter fun pkg => !hasNewerCandidate conf qsort pkg) := by
  induction todo generalizing heap upgrades kept fuel with
  | nil =>
    obtain ⟨fuel, rfl⟩ : ∃ m, fuel = m + 1 := ⟨fuel - 1, by simp at hfuel; omega⟩
    exact ⟨heap, rfl, by simpa using h⟩
  | cons pkg todo ih =>
    obtain ⟨fuel, rfl⟩ : ∃ m, fuel = m + 2 := ⟨fuel - 2, by simp at hfuel; omega⟩
    have hfuel : todo.length < fuel + 1 := by simpa using hfuel
    rw [List.head?_cons, Option.map_some, upgradeLoop, upgradeTurn_node]
    by_cases hnewer : hasNewerCandidate conf qsort pkg
    · obtain ⟨hup, hkept, htodo⟩ : pkg ∉ upgrades ∧ pkg ∉ kept ∧ pkg ∉ todo := by
        have hnodup := h.nodup
        simp only [List.nodup_append, List.nodup_cons, List.mem_append, List.mem_cons] at hnodup
        refine ⟨fun hmem => hnodup.2.2 pkg hmem pkg (by simp) rfl,
          fun hmem => hnodup.2.1.2.2 pkg hmem pkg (by simp) rfl, hnodup.2.1.2.1.1⟩
      have hmoved := h.add_head pkg
      rw [Links.filter_ne_of_notMem hup, List.filter_append, Links.filter_ne_of_notMem hkept,
        List.filter_cons_of_neg (by simp), Links.filter_ne_of_notMem htodo] at hmoved
      have hprev := prev_of_flat h.all_ring (h.depend_ring (.list pkg))
        (h.depended pkg (List.mem_append_right kept List.mem_cons_self)) (fun q _ => by simp)
      have hmove : activeListMoveNode heap .all .head (.list pkg) =
          .ok (kept.getLast?.map listAddr, activeListAdd heap .head (.list pkg)) := by
        rw [activeListMoveNode, if_neg (by simp), hprev]
        rfl
      have hnext := next_of_flat kept (by simp) hmoved.all_ring
        (fun q _ => hmoved.depend_ring (.list q)) fuel
      obtain ⟨heap', hloop, hholds⟩ := ih kept hmoved hfuel
      refine ⟨heap', ?_, by simpa [hnewer] using hholds⟩
      rw [if_pos hnewer, hmove]
      change (activeListNext _ _ _ _).bind _ = _
      rw [hnext]
      exact hloop
    · rw [List.append_cons] at h
      have hnext := next_of_flat (kept ++ [pkg]) (by simp) h.all_ring
        (fun q _ => h.depend_ring (.list q)) fuel
      rw [List.getLast?_concat] at hnext
      obtain ⟨heap', hloop, hholds⟩ := ih (kept ++ [pkg]) h hfuel
      refine ⟨heap', ?_, by simpa [hnewer] using hholds⟩
      rw [if_neg hnewer]
      change (activeListNext _ _ _ _).bind _ = _
      rw [← Option.map_some, hnext]
      exact hloop

omit [DecidableEq A] in
theorem HoldsLists.clear_all (h : HoldsLists heap upgrades rest) (hfuel : rest.length < fuel) :
    activeListClear heap fuel .all = .ok (activeListReset (resetAll heap rest) .all) := by
  have hfirst : heap.links.next (.node .all) = (rest.map listAddr).head?.getD (.node .all) :=
    h.all_ring.next_eq
  have hnext : ∀ xs pkg ys, rest = xs ++ pkg :: ys →
      heap.links.next (listAddr pkg) = (ys.map listAddr).head?.getD (.node .all) := by
    rintro xs pkg ys rfl
    have hring := h.all_ring
    rw [List.append_cons, List.map_append] at hring
    simpa using hring.next_getLast
  have hclear := listHeadClear_of_flat (List.nodup_append.mp h.nodup).2.1 (by simp) hnext
    (fun q _ => h.depend_ring (.list q)) hfuel
  have hall : (resetAll heap rest).links.next (.depend .all) = .depend .all :=
    (linked_resetAll (h.depend_ring .all) (by simp [ListHead.owner]) (by simp [ListHead.owner])).1
  rw [activeListClear, hfirst, hclear]
  change (if _ then _ else _ : Except ActiveFault _).bind _ = _
  rw [if_neg (not_not.mpr hall)]
  rfl

omit [DecidableEq A] in
theorem HoldsLists.forward_head (h : HoldsLists heap upgrades rest)
    (hfuel : upgrades.length < fuel) :
    forward (activeListReset (resetAll heap rest) .all) .head fuel =
      .ok (upgrades.map listAddr) := by
  have hlinked : ∀ u v : ListHead (UpgradeNode P),
      (u.owner ≠ .all ∧ ∀ q ∈ rest, u.owner ≠ .list q) →
      (v.owner ≠ .all ∧ ∀ q ∈ rest, v.owner ≠ .list q) → heap.links.Linked u v →
      (activeListReset (resetAll heap rest) .all).links.Linked u v := by
    intro u v hu hv huv
    exact linked_reset (linked_resetAll huv hu.2 hv.2) hu.1 hv.1
  have hother : ∀ pkg ∈ upgrades, ∀ q ∈ rest, UpgradeNode.list pkg ≠ .list q := by
    intro pkg hpkg q hq heq
    exact (List.nodup_append.mp h.nodup).2.2 pkg hpkg q hq (UpgradeNode.list.inj heq)
  have howner : ∀ w, w = .node .head ∨ w ∈ upgrades.map listAddr →
      w.owner ≠ .all ∧ ∀ q ∈ rest, w.owner ≠ .list q := by
    intro w hw
    rcases hw with rfl | hmem
    · simp [ListHead.owner]
    · obtain ⟨pkg, hpkg, rfl⟩ := List.mem_map.mp hmem
      exact ⟨by simp [ListHead.owner], hother pkg hpkg⟩
  apply forward_of_flat (by simp) _ _ hfuel
  · apply h.head_ring.imp
    intro u v hu hv
    apply hlinked u v (howner u (List.mem_cons.mp hu)) (howner v _)
    rwa [List.mem_append, List.mem_singleton, or_comm] at hv
  · intro pkg hpkg
    have hpkg : (ListHead.depend (UpgradeNode.list pkg)).owner ≠ .all ∧
        ∀ q ∈ rest, (ListHead.depend (UpgradeNode.list pkg)).owner ≠ .list q :=
      ⟨by simp [ListHead.owner], hother pkg hpkg⟩
    exact hlinked _ _ hpkg hpkg (h.depend_ring (.list pkg))

/-- Among the packages of an abstract package in the hash, and installed or unpacked. -/
def IsInstalledIn (pkg : P) : Prop :=
  (∃ name apkg, (name, some apkg) ∈ conf.pkgHash.foreach ∧
    ∃ pkgs, (conf.apkg apkg).pkgs = some pkgs ∧ pkg ∈ pkgs) ∧
  isInstalled (conf.pkg pkg).stateStatus = true

def allInstalled : List P :=
  ((conf.pkgHash.foreach.filterMap Prod.snd).flatMap fun apkg =>
    (conf.apkg apkg).pkgs.getD []).filter fun pkg => isInstalled (conf.pkg pkg).stateStatus

omit [DecidableEq P] [DecidableEq A] in
theorem mem_allInstalled (pkg : P) : pkg ∈ allInstalled conf ↔ IsInstalledIn conf pkg := by
  rw [allInstalled, List.mem_filter, IsInstalledIn]
  refine and_congr_left' ?_
  simp only [List.mem_flatMap, List.mem_filterMap, Prod.exists]
  constructor
  · rintro ⟨apkg, ⟨name, data, hmem, rfl⟩, hpkg⟩
    cases hpkgs : (conf.apkg apkg).pkgs with
    | none => simp [hpkgs] at hpkg
    | some pkgs => exact ⟨name, apkg, hmem, pkgs, hpkgs, by simpa [hpkgs] using hpkg⟩
  · rintro ⟨name, apkg, hmem, pkgs, hpkgs, hpkg⟩
    exact ⟨apkg, ⟨name, some apkg, hmem, rfl⟩, by simpa [hpkgs] using hpkg⟩

def addEach (heap : ActiveHeap (UpgradeNode P)) (pkgs : List P) : ActiveHeap (UpgradeNode P) :=
  pkgs.foldl (fun heap pkg => activeListAdd heap .all (.list pkg)) heap

omit [DecidableEq A] in
theorem foldl_helper :
    (conf.pkgHash.foreach.filterMap Prod.snd).foldl (pkgHashCheckInstalledPkgHelper conf) heap =
      addEach heap (allInstalled conf) := by
  rw [addEach, allInstalled, List.foldl_filter, List.foldl_flatMap]
  rfl

theorem HoldsLists.add_each (pkgs : List P) (h : HoldsLists heap [] rest) :
    ∃ all, HoldsLists (addEach heap pkgs) [] all ∧ ∀ pkg, pkg ∈ all ↔ pkg ∈ rest ∨ pkg ∈ pkgs := by
  induction pkgs generalizing heap rest with
  | nil => exact ⟨rest, h, by simp⟩
  | cons p pkgs ih =>
    obtain ⟨all, hall, hmem⟩ := ih (h.add_all p)
    refine ⟨all, hall, fun pkg => ?_⟩
    by_cases heq : pkg = p <;> simp [hmem, heq]

/-- Whatever is installed and whatever candidates there are, the call ends, and going through the
list that it returns gives the packages that the loop moves, each once. -/
theorem prepareUpgradeList_lists :
    ∃ order : List P,
      (∃ enough, ∀ fuel ≥ enough, ∃ heap, prepareUpgradeList conf qsort fuel = .ok heap ∧
        forward heap .head fuel = .ok (order.map listAddr)) ∧
      order.Nodup ∧
      ∀ pkg, pkg ∈ order ↔ IsInstalledIn conf pkg ∧ hasNewerCandidate conf qsort pkg = true := by
  obtain ⟨all, hall, hmem⟩ := holdsLists_init.add_each (allInstalled conf)
  have hnodup : all.Nodup := by simpa using hall.nodup
  refine ⟨all.filter (hasNewerCandidate conf qsort), ⟨all.length + 1, fun fuel hfuel => ?_⟩,
    hnodup.filter _, fun pkg => ?_⟩
  · obtain ⟨fuel, rfl⟩ : ∃ m, fuel = m + 1 := ⟨fuel - 1, by omega⟩
    have hfirst := next_of_flat [] (by simp) hall.all_ring
      (fun q _ => hall.depend_ring (.list q)) fuel
    obtain ⟨heap, hloop, hheap⟩ := upgradeLoop_eq conf qsort [] hall
      (show all.length < fuel + 1 by omega)
    have hupgrades := List.length_filter_le (hasNewerCandidate conf qsort) all
    have hrest := List.length_filter_le (fun pkg => !hasNewerCandidate conf qsort pkg) all
    refine ⟨_, ?_, hheap.forward_head (hupgrades.trans_lt (by omega))⟩
    rw [prepareUpgradeList, foldl_helper]
    change (activeListNext (addEach activeListInit (allInstalled conf)) (fuel + 1) _ none).bind _ = _
    rw [show activeListNext _ (fuel + 1) _ none = _ from hfirst]
    change (upgradeLoop conf qsort (fuel + 1) (all.head?.map listAddr) _).bind _ = _
    rw [hloop]
    exact hheap.clear_all (hrest.trans_lt (by omega))
  · rw [List.mem_filter, hmem, mem_allInstalled]
    simp

end Lists

/-! ### Newer candidates -/

section Newer

variable {platform : Platform} {A : Type} [DecidableEq A] [DecidableEq P]
  (conf : UpgradeConf platform A P)

def IsNewer (old new : P) : Prop :=
  pkgCompareVersions platform (conf.pkg old).toPkgVersion (conf.pkg new).toPkgVersion < 0

def hasNameOf (old pkg : P) : Bool := (conf.pkg pkg).name = (conf.pkg old).name

/-- A package of this name from a provider of it, compatible and of a greater version. -/
def IsUpgradeOf (old new : P) : Prop :=
  ∃ apkg, conf.pkgHash.get (conf.pkg old).name = some apkg ∧
    IsCandidate conf.toNamedHash apkg (hasNameOf conf old) new ∧ IsNewer conf old new

/-- The list that is returned holds every installed package with a newer candidate once, and nothing
else. -/
def ListsUpgrades (qsort : Qsort P) : Prop :=
  ∃ order : List P,
    (∃ enough, ∀ fuel ≥ enough, ∃ heap, prepareUpgradeList conf qsort fuel = .ok heap ∧
      forward heap .head fuel = .ok (order.map listAddr)) ∧
    order.Nodup ∧
    ∀ pkg, pkg ∈ order ↔ IsInstalledIn conf pkg ∧ ∃ new, IsUpgradeOf conf pkg new

/-- What is chosen where there is no candidate: of the packages on hold or preferred, or else of
those with an installed parent, one of the greatest name, or else the only package. -/
def IsSubstitute (apkg : A) (p : P) : Prop :=
  p ∈ matchingPkgs conf.toPkgHash apkg ∧
    IsLastOf (nameLE (h := conf.toNamedHash)) (matchingPkgs conf.toPkgHash apkg) p
      [isHeld conf.toPkgHash, parentInstalled conf.toPkgHash]

/-- Where a candidate is newer, so are those provided by hand, and where there is no candidate, none
of what is chosen instead is newer. -/
structure ChoosesNewer (old : P) (apkg : A) : Prop where
  byHand : ∀ new, IsCandidate conf.toNamedHash apkg (hasNameOf conf old) new →
    IsNewer conf old new → ∀ p, IsCandidate conf.toNamedHash apkg (hasNameOf conf old) p →
      (conf.pkg p).providedByHand = true → IsNewer conf old p
  others : (¬∃ p, IsCandidate conf.toNamedHash apkg (hasNameOf conf old) p) →
    ∀ p, IsSubstitute conf apkg p → ¬IsNewer conf old p

/-- Some candidate was provided by hand, or all of them are newer, or none is. -/
def Unanimous (old : P) (apkg : A) : Prop :=
  (∃ p, IsCandidate conf.toNamedHash apkg (hasNameOf conf old) p ∧
      (conf.pkg p).providedByHand = true) ∨
    ∀ p q, IsCandidate conf.toNamedHash apkg (hasNameOf conf old) p →
      IsCandidate conf.toNamedHash apkg (hasNameOf conf old) q →
      IsNewer conf old p → IsNewer conf old q

variable {conf} {old : P} {apkg : A}

omit [DecidableEq A] [DecidableEq P] in
theorem IsNewer.of_le {p q : P} (hp : IsNewer conf old p)
    (hle : pkgCompareVersions platform (conf.pkg p).toPkgVersion (conf.pkg q).toPkgVersion ≤ 0) :
    IsNewer conf old q :=
  (pkgCompareVersions_comparesBy platform).trans_lt_left hp hle

omit [DecidableEq A] [DecidableEq P] in
theorem strcmp_hasNameOf {p q : P} (hp : hasNameOf conf old p = true)
    (hq : hasNameOf conf old q = true) : strcmp (conf.pkg p).name (conf.pkg q).name = 0 := by
  rw [of_decide_eq_true hp, of_decide_eq_true hq]
  exact (names_comparesBy (h := conf.toNamedHash)).self old

omit [DecidableEq P] in
theorem hasNewerCandidate_iff (hget : conf.pkgHash.get (conf.pkg old).name = some apkg)
    (qsort : Qsort P) : hasNewerCandidate conf qsort old = true ↔
      ∃ p, pkgHashFetchBestInstallationCandidate conf.toPkgHash qsort apkg (hasNameOf conf old) =
        some p ∧ IsNewer conf old p := by
  rw [hasNewerCandidate, pkgHashFetchBestInstallationCandidateByName, hget]
  simp only [Option.any_eq_true, decide_eq_true_eq]
  rfl

omit [DecidableEq A] [DecidableEq P] in
theorem IsNewer.of_nameVersionLE {p q : P} (hp : hasNameOf conf old p = true)
    (hq : hasNameOf conf old q = true) (hle : nameVersionLE (h := conf.toNamedHash) p q)
    (hnewer : IsNewer conf old p) : IsNewer conf old q := by
  rcases hle with hlt | ⟨-, hle⟩
  · exact absurd (strcmp_hasNameOf hp hq) hlt.ne
  · exact hnewer.of_le hle

omit [DecidableEq P] in
theorem chosen_stable_iff :
    ((∃ p, pkgHashFetchBestInstallationCandidate conf.toPkgHash (Qsort.stable P) apkg
          (hasNameOf conf old) = some p ∧ IsNewer conf old p) ↔
        ∃ new, IsCandidate conf.toNamedHash apkg (hasNameOf conf old) new ∧ IsNewer conf old new) ↔
      ChoosesNewer conf old apkg := by
  have hcases (p : P) (hp : pkgHashFetchBestInstallationCandidate conf.toPkgHash (Qsort.stable P)
      apkg (hasNameOf conf old) = some p) :=
    chosen_cases (h := conf.toNamedHash) nameVersionLE_refl (sortedPkgs_stable apkg) hp
  constructor
  · intro hiff
    refine ⟨fun new hnew hnewer p hp hbyHand => ?_, fun hno p hp hnewer => ?_⟩
    · obtain ⟨r, hr, hnewer⟩ := hiff.mpr ⟨new, hnew, hnewer⟩
      obtain ⟨hr, -, hfirst⟩ | ⟨hhand, -⟩ | ⟨hno, -⟩ := hcases r hr
      · exact hnewer.of_nameVersionLE hr.2 hp.2 (hfirst p hp hbyHand)
      · simp [hhand p hp] at hbyHand
      · exact absurd ⟨p, hp⟩ hno
    · have hne : pkgHashFetchBestInstallationCandidate conf.toPkgHash (Qsort.stable P) apkg
          (hasNameOf conf old) ≠ none := by
        rw [Ne, candidate_eq_none_iff, not_not]
        refine hp.2.length_or.imp_right fun ⟨c, hc, hcp⟩ => ⟨p, hp.1, ?_⟩
        simp only [List.mem_cons, List.not_mem_nil, or_false] at hc
        rcases hc with rfl | rfl
        · exact .inr (.inl hcp)
        · exact .inr (.inr hcp)
      obtain ⟨r, hr⟩ := Option.ne_none_iff_exists'.mp hne
      obtain ⟨hcandidate, -⟩ | ⟨-, hcandidate, -⟩ | ⟨-, hmem, hlast⟩ := hcases r hr
      · exact hno ⟨r, hcandidate⟩
      · exact hno ⟨r, hcandidate⟩
      · obtain ⟨hle, hname⟩ := hlast.rel nameVersionLE_refl nameLE_refl hmem hp.1 hp.2
        have hnewer : IsNewer conf old r := by
          rcases hle with hlt | ⟨-, hle⟩
          · have hcompares := names_comparesBy (h := conf.toNamedHash)
            have hle := (hcompares.le_iff r p).mp hname
            exact absurd ((hcompares.lt_iff p r).mp hlt) hle.not_gt
          · exact hnewer.of_le hle
        obtain ⟨new, hnew, -⟩ := hiff.mp ⟨r, hr, hnewer⟩
        exact hno ⟨new, hnew⟩
  · intro h
    constructor
    · rintro ⟨r, hr, hnewer⟩
      obtain ⟨hcandidate, -⟩ | ⟨-, hcandidate, -⟩ | ⟨hno, hmem, hlast⟩ := hcases r hr
      · exact ⟨r, hcandidate, hnewer⟩
      · exact ⟨r, hcandidate, hnewer⟩
      · exact absurd hnewer (h.others hno r ⟨hmem, hlast.imp fun _ _ => nameVersionLE.nameLE⟩)
    · rintro ⟨new, hnew, hnewer⟩
      obtain ⟨r, hr⟩ := exists_chosen (Qsort.stable P) ⟨new, hnew⟩
      refine ⟨r, hr, ?_⟩
      obtain ⟨hcandidate, hbyHand, -⟩ | ⟨-, hcandidate, hgreatest⟩ | ⟨hno, -⟩ := hcases r hr
      · exact h.byHand new hnew hnewer r hcandidate hbyHand
      · exact hnewer.of_nameVersionLE hnew.2 hcandidate.2 (hgreatest new hnew)
      · exact absurd ⟨new, hnew⟩ hno

omit [DecidableEq P] in
theorem chosen_iff :
    (∀ qsort : SortingQsort P,
      (∃ p, pkgHashFetchBestInstallationCandidate conf.toPkgHash qsort.toQsort apkg
          (hasNameOf conf old) = some p ∧ IsNewer conf old p) ↔
        ∃ new, IsCandidate conf.toNamedHash apkg (hasNameOf conf old) new ∧ IsNewer conf old new) ↔
      ChoosesNewer conf old apkg ∧ Unanimous conf old apkg := by
  constructor
  · intro hall
    refine ⟨chosen_stable_iff.mp (hall (SortingQsort.stable P)), ?_⟩
    refine or_iff_not_imp_left.mpr fun hhand p q hp hq hnewer => ?_
    have hnotByHand : ∀ p, IsCandidate conf.toNamedHash apkg (hasNameOf conf old) p →
        (conf.pkg p).providedByHand = false := by
      intro p hp
      by_contra hbyHand
      exact hhand ⟨p, hp, by simpa using hbyHand⟩
    have hgreatest : IsGreatestName conf.toNamedHash apkg (hasNameOf conf old) q :=
      ⟨hq, fun r hr => (strcmp_hasNameOf hr.2 hq.2).le⟩
    obtain ⟨r, hr, hnewer⟩ := (hall (SortingQsort.favouring q)).mpr ⟨p, hp, hnewer⟩
    obtain rfl : q = r :=
      Option.some.inj ((candidate_favouring hnotByHand hgreatest).symm.trans hr)
    exact hnewer
  · rintro ⟨h, hunanimous⟩ qsort
    have hcases (p : P) (hp : pkgHashFetchBestInstallationCandidate conf.toPkgHash qsort.toQsort
        apkg (hasNameOf conf old) = some p) :=
      chosen_cases (h := conf.toNamedHash) nameLE_refl (sortedPkgs_pairwise qsort apkg) hp
    constructor
    · rintro ⟨r, hr, hnewer⟩
      obtain ⟨hcandidate, -⟩ | ⟨-, hcandidate, -⟩ | ⟨hno, hsubstitute⟩ := hcases r hr
      · exact ⟨r, hcandidate, hnewer⟩
      · exact ⟨r, hcandidate, hnewer⟩
      · exact absurd hnewer (h.others hno r hsubstitute)
    · rintro ⟨new, hnew, hnewer⟩
      obtain ⟨r, hr⟩ := exists_chosen qsort.toQsort ⟨new, hnew⟩
      refine ⟨r, hr, ?_⟩
      obtain ⟨hcandidate, hbyHand, -⟩ | ⟨hhand, hcandidate, -⟩ | ⟨hno, -⟩ := hcases r hr
      · exact h.byHand new hnew hnewer r hcandidate hbyHand
      · rcases hunanimous with ⟨p, hp, hbyHand⟩ | hall
        · simp [hhand p hp] at hbyHand
        · exact hall new r hnew hcandidate hnewer
      · exact absurd ⟨new, hnew⟩ hno

theorem listsUpgrades_iff (qsort : Qsort P) : ListsUpgrades conf qsort ↔
    ∀ old apkg, IsInstalledIn conf old → conf.pkgHash.get (conf.pkg old).name = some apkg →
      ((∃ p, pkgHashFetchBestInstallationCandidate conf.toPkgHash qsort apkg
          (hasNameOf conf old) = some p ∧ IsNewer conf old p) ↔
        ∃ new, IsCandidate conf.toNamedHash apkg (hasNameOf conf old) new ∧
          IsNewer conf old new) := by
  obtain ⟨order, ⟨enough, hrun⟩, hnodup, hmem⟩ := prepareUpgradeList_lists conf qsort
  have hupgrade : ∀ old apkg, conf.pkgHash.get (conf.pkg old).name = some apkg →
      ((∃ new, IsUpgradeOf conf old new) ↔
        ∃ new, IsCandidate conf.toNamedHash apkg (hasNameOf conf old) new ∧
          IsNewer conf old new) := by
    intro old apkg hget
    simp only [IsUpgradeOf, hget, Option.some.injEq, exists_eq_left']
  constructor
  · rintro ⟨order', ⟨enough', hrun'⟩, -, hmem'⟩ old apkg hinstalled hget
    obtain ⟨heap, hheap, hforward⟩ := hrun (max enough enough') (le_max_left _ _)
    obtain ⟨heap', hheap', hforward'⟩ := hrun' (max enough enough') (le_max_right _ _)
    obtain rfl := Except.ok.inj (hheap.symm.trans hheap')
    have hinj : Function.Injective (listAddr : P → ListHead (UpgradeNode P)) := by
      intro p q heq
      exact UpgradeNode.list.inj (ListHead.node.inj heq)
    obtain rfl := hinj.list_map (Except.ok.inj (hforward.symm.trans hforward'))
    have hboth := (hmem old).symm.trans (hmem' old)
    rw [and_congr_right_iff] at hboth
    rw [← hasNewerCandidate_iff hget, ← hupgrade old apkg hget]
    exact hboth hinstalled
  · intro hall
    refine ⟨order, ⟨enough, hrun⟩, hnodup, fun old => ?_⟩
    rw [hmem]
    refine and_congr_right fun hinstalled => ?_
    cases hget : conf.pkgHash.get (conf.pkg old).name with
    | none =>
      simp [hasNewerCandidate, pkgHashFetchBestInstallationCandidateByName, IsUpgradeOf, hget]
    | some apkg =>
      rw [hasNewerCandidate_iff hget, hupgrade old apkg hget]
      exact hall old apkg hinstalled hget

variable (conf) in
/-- **The upgrade list.** With a `qsort` that keeps the order of what compares equal the list holds
every installed package with a newer candidate once, and nothing else, exactly if for none of them
an older one was provided by hand or a newer one of another name is chosen for want of a candidate;
whatever `qsort` does, exactly if also all its candidates are newer or none is. -/
theorem prepare_upgrade_list_exact_iff :
    (ListsUpgrades conf (Qsort.stable P) ↔
      ∀ old apkg, IsInstalledIn conf old → conf.pkgHash.get (conf.pkg old).name = some apkg →
        ChoosesNewer conf old apkg) ∧
    ((∀ qsort : SortingQsort P, ListsUpgrades conf qsort.toQsort) ↔
      ∀ old apkg, IsInstalledIn conf old → conf.pkgHash.get (conf.pkg old).name = some apkg →
        ChoosesNewer conf old apkg ∧ Unanimous conf old apkg) := by
  constructor
  · rw [listsUpgrades_iff]
    simp only [chosen_stable_iff]
  · simp only [listsUpgrades_iff, ← chosen_iff]
    exact ⟨fun h old apkg hinstalled hget qsort => h qsort old apkg hinstalled hget,
      fun h qsort old apkg hinstalled hget => h old apkg hinstalled hget qsort⟩

end Newer

/-- Package `a` is installed and of an architecture that is not configured any more; what provides its
name besides is package `b`, of a greater version. -/
def successorHash : NamedHash ⟨false, 0⟩ Bool Bool where
  apkg b :=
    { pkgs := some [b]
      stateStatus := if b then .notInstalled else .installed
      providedBy := if b then [true] else [false, true]
      replacedBy := [] }
  pkg b :=
    { epoch := if b then 1 else 0
      version := none
      revision := none
      name := if b then ascii "b" else ascii "a"
      architecture := ascii "arm"
      archPriority := if b then 10 else 0
      stateWant := .unknown
      stateFlag := 0
      stateStatus := if b then .notInstalled else .installed
      providedByHand := false
      depends := []
      parent := some b }
  merged p q hsame := by
    have hname := (Bool.and_eq_true_iff.mp hsame).1
    clear hsame
    revert p q
    decide
  cstring := by decide

def successorConf : UpgradeConf ⟨false, 0⟩ Bool Bool where
  toNamedHash := successorHash
  pkgHash :=
    { nEntries := 1
      nElements := 2
      entries := fun _ => ⟨⟨some (ascii "a"), some false⟩, [⟨some (ascii "b"), some true⟩]⟩ }
  entered := by decide

theorem not_listsUpgrades_successor : ¬ListsUpgrades successorConf (Qsort.stable Bool) := by
  intro h
  have hinstalled : IsInstalledIn successorConf false :=
    ⟨⟨ascii "a", false, by decide, [false], rfl, List.mem_singleton_self false⟩, rfl⟩
  obtain ⟨new, hnew, -⟩ :=
    ((listsUpgrades_iff _).mp h false false hinstalled (by decide)).mp ⟨true, by decide, by
      unfold IsNewer
      decide⟩
  have hnone : ∀ p ∈ matchingPkgs successorConf.toPkgHash false,
      hasNameOf successorConf false p = false := by
    decide
  have hname := hnew.2
  rw [hnone new hnew.1] at hname
  cases hname

end Openmoko.Opkg
