import Mathlib.Data.Finset.Card
import Mathlib.Logic.Relation
import Openmoko.Library.Loop

/-!
# Depth-first search

The vertices of a directed graph are gone through from one of them, and put into a list as they are
left. They are told apart by a key: a vertex is passed over when one of its key was met before.
Where the vertices that edges lead to have keys of their own, the list gets every vertex that can be
reached past those met before, once, and a vertex comes after those its edges lead to unless these
lead back to it.
-/

namespace Openmoko.DepthFirst

/-- The vertices met, and those left. -/
structure Vectors (α : Type) where
  visited : List α
  ordered : List α

section Definitions

variable {α κ : Type} [DecidableEq κ] (key : α → κ) (succ : α → List α)

/-- The search from a vertex, followed to the given depth. -/
def visit : ℕ → α → Vectors α → Option (Vectors α)
  | 0, _, _ => none
  | depth + 1, x, v =>
    if key x ∈ v.visited.map key then some v
    else do
      let v ← (succ x).foldlM (fun v y => visit depth y v) { v with visited := v.visited ++ [x] }
      return { v with ordered := v.ordered ++ [x] }

def EdgeAvoiding (seen : List κ) (p q : α) : Prop := q ∈ succ p ∧ key q ∉ seen

/-- A path that meets none of these keys after its start. -/
def Path (seen : List κ) : α → α → Prop := Relation.ReflTransGen (EdgeAvoiding key succ seen)

def Before (l : List α) (q p : α) : Prop := ∃ before after, l = before ++ p :: after ∧ q ∈ before

/-- Some edge leads to the vertex. -/
def LedTo (q : α) : Prop := ∃ p, q ∈ succ p

/-- The vertices that edges lead to have keys of their own. -/
def KeysTell : Prop := ∀ p q, LedTo succ p → LedTo succ q → key p = key q → p = q

/-- What the search from these vertices, one after the other, has done. -/
structure Explores (roots : List α) (v v' : Vectors α) (new : List α) : Prop where
  ordered : v'.ordered = v.ordered ++ new
  visited : ∀ k, k ∈ v'.visited.map key ↔ k ∈ v.visited.map key ∨ k ∈ new.map key
  nodup : (new.map key).Nodup
  fresh : ∀ p ∈ new, key p ∉ v.visited.map key
  met : ∀ x ∈ roots, key x ∈ v'.visited.map key
  closed : ∀ p ∈ new, ∀ q ∈ succ p, key q ∈ v'.visited.map key
  reached : ∀ p ∈ new, ∃ x ∈ roots,
    key x ∉ v.visited.map key ∧ Path key succ (v.visited.map key) x p
  sorted : ∀ p ∈ new, ∀ q ∈ succ p,
    key q ∈ v.visited.map key ∨ Before new q p ∨ Path key succ [] q p

end Definitions

variable {α κ : Type} {key : α → κ} {succ : α → List α}

theorem Path.mono {seen seen' : List κ} (hsub : seen' ⊆ seen) {p q : α}
    (hpath : Path key succ seen p q) : Path key succ seen' p q := by
  apply Relation.ReflTransGen.mono _ _ _ hpath
  intro a b hedge
  exact ⟨hedge.1, fun hmem => hedge.2 (hsub hmem)⟩

variable {x : α} {depth : ℕ} {keys : Finset κ}

theorem Path.ledTo {seen : List κ} {p : α} (hpath : Path key succ seen x p)
    (hx : LedTo succ x) : LedTo succ p := by
  rcases Relation.ReflTransGen.cases_tail hpath with rfl | ⟨w, -, hedge⟩
  · exact hx
  · exact ⟨w, hedge.1⟩

theorem Before.append_right {l : List α} {p q : α} (hbefore : Before l q p) (more : List α) :
    Before (l ++ more) q p := by
  obtain ⟨before, after, rfl, hq⟩ := hbefore
  exact ⟨before, after ++ more, by simp, hq⟩

theorem Before.append_left {l : List α} {p q : α} (hbefore : Before l q p) (earlier : List α) :
    Before (earlier ++ l) q p := by
  obtain ⟨before, after, rfl, hq⟩ := hbefore
  exact ⟨earlier ++ before, after, by simp, List.mem_append_right _ hq⟩

theorem before_of_mem {l more : List α} {p q : α} (hq : q ∈ l) (hp : p ∈ more) :
    Before (l ++ more) q p := by
  obtain ⟨before, after, rfl⟩ := List.append_of_mem hp
  exact ⟨l ++ before, after, by simp, List.mem_append_left _ hq⟩

namespace Explores

variable {roots new : List α} {v v' : Vectors α}

theorem refl (v : Vectors α) : Explores key succ [] v v [] where
  ordered := by simp
  visited := by simp
  nodup := by simp
  fresh := by simp
  met := by simp
  closed := by simp
  reached := by simp
  sorted := by simp

theorem ledTo (hexplores : Explores key succ roots v v' new) (hroots : ∀ x ∈ roots, LedTo succ x)
    {p : α} (hp : p ∈ new) : LedTo succ p := by
  obtain ⟨x, hx, -, hpath⟩ := hexplores.reached p hp
  exact hpath.ledTo (hroots x hx)

theorem mem_new (hexplores : Explores key succ roots v v' new) (htell : KeysTell key succ)
    (hroots : ∀ x ∈ roots, LedTo succ x) {q : α} (hq : LedTo succ q)
    (hmem : key q ∈ new.map key) : q ∈ new := by
  obtain ⟨z, hz, hkey⟩ := List.mem_map.mp hmem
  rwa [← htell z q (hexplores.ledTo hroots hz) hq hkey]

theorem already {x : α} (hmem : key x ∈ v.visited.map key) : Explores key succ [x] v v [] where
  ordered := by simp
  visited := by simp
  nodup := by simp
  fresh := by simp
  met := by simpa using hmem
  closed := by simp
  reached := by simp
  sorted := by simp

theorem cons {x : α} {mid : Vectors α} {first rest : List α} (htell : KeysTell key succ)
    (hx : LedTo succ x) (hfirst : Explores key succ [x] v mid first)
    (hrest : Explores key succ roots mid v' rest) :
    Explores key succ (x :: roots) v v' (first ++ rest) := by
  have hgrows : v.visited.map key ⊆ mid.visited.map key :=
    fun k hk => (hfirst.visited k).mpr (Or.inl hk)
  have hgrows' : mid.visited.map key ⊆ v'.visited.map key :=
    fun k hk => (hrest.visited k).mpr (Or.inl hk)
  have hled : ∀ y ∈ [x], LedTo succ y := by simpa using hx
  constructor
  · rw [hrest.ordered, hfirst.ordered, List.append_assoc]
  · intro k
    rw [hrest.visited, hfirst.visited, List.map_append, List.mem_append, or_assoc]
  · rw [List.map_append, List.nodup_append]
    refine ⟨hfirst.nodup, hrest.nodup, ?_⟩
    rintro k hk _ hk' rfl
    obtain ⟨p, hp, rfl⟩ := List.mem_map.mp hk'
    exact hrest.fresh p hp ((hfirst.visited _).mpr (Or.inr hk))
  · intro p hp
    rcases List.mem_append.mp hp with hp | hp
    · exact hfirst.fresh p hp
    · exact fun hmem => hrest.fresh p hp (hgrows hmem)
  · intro y hy
    rcases List.mem_cons.mp hy with rfl | hy
    · exact hgrows' (hfirst.met y List.mem_cons_self)
    · exact hrest.met y hy
  · intro p hp q hq
    rcases List.mem_append.mp hp with hp | hp
    · exact hgrows' (hfirst.closed p hp q hq)
    · exact hrest.closed p hp q hq
  · intro p hp
    rcases List.mem_append.mp hp with hp | hp
    · obtain ⟨y, hy, hfresh, hpath⟩ := hfirst.reached p hp
      exact ⟨y, List.mem_cons.mpr (Or.inl (List.mem_singleton.mp hy)), hfresh, hpath⟩
    · obtain ⟨y, hy, hfresh, hpath⟩ := hrest.reached p hp
      exact ⟨y, List.mem_cons_of_mem x hy, fun hmem => hfresh (hgrows hmem), hpath.mono hgrows⟩
  · intro p hp q hq
    rcases List.mem_append.mp hp with hp | hp
    · rcases hfirst.sorted p hp q hq with hseen | hbefore | hback
      · exact Or.inl hseen
      · exact Or.inr (Or.inl (hbefore.append_right rest))
      · exact Or.inr (Or.inr hback)
    · rcases hrest.sorted p hp q hq with hseen | hbefore | hback
      · rcases (hfirst.visited _).mp hseen with hseen | hmem
        · exact Or.inl hseen
        · exact Or.inr (Or.inl (before_of_mem (hfirst.mem_new htell hled ⟨p, hq⟩ hmem) hp))
      · exact Or.inr (Or.inl (hbefore.append_left first))
      · exact Or.inr (Or.inr hback)

theorem leave {x : α} {mid : Vectors α} (htell : KeysTell key succ) (hx : LedTo succ x)
    (hnew : key x ∉ v.visited.map key)
    (hsub : Explores key succ (succ x) { v with visited := v.visited ++ [x] } mid new) :
    Explores key succ [x] v { mid with ordered := mid.ordered ++ [x] } (new ++ [x]) := by
  have hmet : ∀ k, k ∈ (v.visited ++ [x]).map key ↔ k ∈ v.visited.map key ∨ k = key x := by simp
  have hgrows : v.visited.map key ⊆ (v.visited ++ [x]).map key :=
    fun k hk => (hmet k).mpr (Or.inl hk)
  have hled : ∀ y ∈ succ x, LedTo succ y := fun y hy => ⟨x, hy⟩
  have hdown : ∀ p ∈ new, Path key succ (v.visited.map key) x p := by
    intro p hp
    obtain ⟨y, hy, hfresh, hpath⟩ := hsub.reached p hp
    exact Relation.ReflTransGen.head ⟨hy, fun hmem => hfresh (hgrows hmem)⟩ (hpath.mono hgrows)
  constructor
  · simp [hsub.ordered]
  · intro k
    rw [hsub.visited, hmet, List.map_append, List.mem_append, List.map_singleton,
      List.mem_singleton, or_right_comm, or_assoc]
  · rw [List.map_append, List.nodup_append]
    refine ⟨hsub.nodup, by simp, ?_⟩
    intro k hk k' hk'
    obtain ⟨p, hp, rfl⟩ := List.mem_map.mp hk
    rw [List.map_singleton, List.mem_singleton] at hk'
    rintro rfl
    exact hsub.fresh p hp ((hmet _).mpr (Or.inr hk'))
  · intro p hp
    rcases List.mem_append.mp hp with hp | hp
    · exact fun hmem => hsub.fresh p hp (hgrows hmem)
    · rwa [List.mem_singleton.mp hp]
  · intro y hy
    rw [List.mem_singleton.mp hy, hsub.visited, hmet]
    exact Or.inl (Or.inr rfl)
  · intro p hp q hq
    rcases List.mem_append.mp hp with hp | hp
    · exact hsub.closed p hp q hq
    · rw [List.mem_singleton.mp hp] at hq
      exact hsub.met q hq
  · intro p hp
    refine ⟨x, List.mem_singleton.mpr rfl, hnew, ?_⟩
    rcases List.mem_append.mp hp with hp | hp
    · exact hdown p hp
    · rw [List.mem_singleton.mp hp]
      exact Relation.ReflTransGen.refl
  · intro p hp q hq
    have hback : key q = key x → Path key succ [] x p → Path key succ [] q p := by
      intro hkey hpath
      rwa [htell q x ⟨p, hq⟩ hx hkey]
    rcases List.mem_append.mp hp with hp | hp
    · rcases hsub.sorted p hp q hq with hseen | hbefore | hpath
      · rcases (hmet _).mp hseen with hseen | hkey
        · exact Or.inl hseen
        · exact Or.inr (Or.inr (hback hkey ((hdown p hp).mono (List.nil_subset _))))
      · exact Or.inr (Or.inl (hbefore.append_right [x]))
      · exact Or.inr (Or.inr hpath)
    · rw [List.mem_singleton.mp hp] at hq hback ⊢
      rcases (hsub.visited _).mp (hsub.met q hq) with hseen | hmem
      · rcases (hmet _).mp hseen with hseen | hkey
        · exact Or.inl hseen
        · exact Or.inr (Or.inr (hback hkey Relation.ReflTransGen.refl))
      · exact Or.inr (Or.inl (before_of_mem (hsub.mem_new htell hled ⟨x, hq⟩ hmem)
          (List.mem_singleton.mpr rfl)))

end Explores

variable [DecidableEq κ]

theorem visit_of_mem {v : Vectors α} (hmem : key x ∈ v.visited.map key) :
    visit key succ (depth + 1) x v = some v := by
  rw [visit, if_pos hmem]

theorem visit_of_new {v v' : Vectors α} (hnew : key x ∉ v.visited.map key)
    (hvisit : visit key succ (depth + 1) x v = some v') :
    ∃ mid, (succ x).foldlM (fun t y => visit key succ depth y t)
        { v with visited := v.visited ++ [x] } = some mid ∧
      v' = { mid with ordered := mid.ordered ++ [x] } := by
  rw [visit, if_neg hnew] at hvisit
  obtain ⟨mid, hloop, heq⟩ := Option.bind_eq_some_iff.mp hvisit
  cases heq
  exact ⟨mid, hloop, rfl⟩

theorem loop_explores (htell : KeysTell key succ)
    (hvisit : ∀ x, LedTo succ x → ∀ v v' : Vectors α, visit key succ depth x v = some v' →
      ∃ new, Explores key succ [x] v v' new)
    {roots : List α} (hroots : ∀ x ∈ roots, LedTo succ x) {v v' : Vectors α}
    (hloop : roots.foldlM (fun v x => visit key succ depth x v) v = some v') :
    ∃ new, Explores key succ roots v v' new := by
  induction roots generalizing v with
  | nil =>
    cases hloop
    exact ⟨[], Explores.refl _⟩
  | cons x roots ih =>
    rw [List.foldlM_cons] at hloop
    obtain ⟨mid, hturn, hrest⟩ := Option.bind_eq_some_iff.mp hloop
    have hx := hroots x List.mem_cons_self
    have hmore := fun y hy => hroots y (List.mem_cons_of_mem x hy)
    obtain ⟨first, hfirst⟩ := hvisit x hx v mid hturn
    obtain ⟨rest, hrest⟩ := ih hmore hrest
    exact ⟨first ++ rest, Explores.cons htell hx hfirst hrest⟩

theorem visit_explores (htell : KeysTell key succ) (depth : ℕ) :
    ∀ x, LedTo succ x → ∀ v v', visit key succ depth x v = some v' →
      ∃ new, Explores key succ [x] v v' new := by
  induction depth with
  | zero =>
    intro x _ v v' hvisit
    cases hvisit
  | succ depth ih =>
    intro x hx v v' hvisit
    by_cases hmem : key x ∈ v.visited.map key
    · rw [visit_of_mem hmem] at hvisit
      cases hvisit
      exact ⟨[], Explores.already hmem⟩
    · obtain ⟨mid, hloop, rfl⟩ := visit_of_new hmem hvisit
      obtain ⟨new, hsub⟩ := loop_explores htell ih (fun y hy => ⟨x, hy⟩) hloop
      exact ⟨new ++ [x], Explores.leave htell hx hmem hsub⟩

/-- **What the search from a new vertex puts into the list.** No edge need lead to this vertex, so
another one may have its key; that one is passed over. -/
theorem visit_ordered (htell : KeysTell key succ) {v v' : Vectors α}
    (hnew : key x ∉ v.visited.map key) (hvisit : visit key succ depth x v = some v') :
    ∃ new, v'.ordered = v.ordered ++ new ∧ (new.map key).Nodup ∧
      (∀ p, p ∈ new ↔ Path key succ (key x :: v.visited.map key) x p) ∧
      ∀ p ∈ new, ∀ q ∈ succ p, key q ∉ key x :: v.visited.map key → ¬Path key succ [] q p →
        Before new q p := by
  cases depth with
  | zero => cases hvisit
  | succ depth =>
    obtain ⟨mid, hloop, rfl⟩ := visit_of_new hnew hvisit
    have hled : ∀ y ∈ succ x, LedTo succ y := fun y hy => ⟨x, hy⟩
    obtain ⟨new, hsub⟩ := loop_explores htell (visit_explores htell depth) hled hloop
    have hmet : ∀ k, k ∈ (v.visited ++ [x]).map key ↔ k ∈ key x :: v.visited.map key := by
      intro k
      rw [List.map_append, List.mem_append, List.map_singleton, List.mem_singleton,
        List.mem_cons, or_comm]
    -- an edge to a vertex that was not met before leads to one of the new vertices
    have hstep : ∀ {q}, LedTo succ q → key q ∉ key x :: v.visited.map key →
        key q ∈ mid.visited.map key → q ∈ new := by
      intro q hq hfresh hmem
      rw [← hmet] at hfresh
      exact hsub.mem_new htell hled hq (((hsub.visited _).mp hmem).resolve_left hfresh)
    refine ⟨new ++ [x], ?_, ?_, ?_, ?_⟩
    · rw [hsub.ordered, List.append_assoc]
    · rw [List.map_append, List.nodup_append]
      refine ⟨hsub.nodup, by simp, ?_⟩
      intro k hk k' hk'
      obtain ⟨p, hp, rfl⟩ := List.mem_map.mp hk
      rw [List.map_singleton, List.mem_singleton] at hk'
      rintro rfl
      exact hsub.fresh p hp ((hmet _).mpr (hk' ▸ List.mem_cons_self))
    · intro p
      constructor
      · intro hp
        rcases List.mem_append.mp hp with hp | hp
        · obtain ⟨y, hy, hfresh, hpath⟩ := hsub.reached p hp
          have hpath := hpath.mono (fun k hk => (hmet k).mpr hk)
          exact Relation.ReflTransGen.head ⟨hy, fun hmem => hfresh ((hmet _).mpr hmem)⟩ hpath
        · rw [List.mem_singleton.mp hp]
          exact Relation.ReflTransGen.refl
      · intro hpath
        induction hpath with
        | refl => exact List.mem_append_right new (List.mem_singleton.mpr rfl)
        | tail hpath hedge ih =>
          apply List.mem_append_left
          rcases List.mem_append.mp ih with hp | hp
          · exact hstep ⟨_, hedge.1⟩ hedge.2 (hsub.closed _ hp _ hedge.1)
          · rw [List.mem_singleton.mp hp] at hedge
            exact hstep ⟨x, hedge.1⟩ hedge.2 (hsub.met _ hedge.1)
    · intro p hp q hq hfresh hacyclic
      rcases List.mem_append.mp hp with hp | hp
      · rcases hsub.sorted p hp q hq with hseen | hbefore | hback
        · exact absurd ((hmet _).mp hseen) hfresh
        · exact hbefore.append_right [x]
        · exact absurd hback hacyclic
      · rw [List.mem_singleton.mp hp] at hq ⊢
        exact before_of_mem (hstep ⟨x, hq⟩ hfresh (hsub.met q hq)) (List.mem_singleton.mpr rfl)

/-- The keys of a set that were not met. -/
def unmet (key : α → κ) (keys : Finset κ) (v : Vectors α) : Finset κ :=
  keys.filter fun k => k ∉ v.visited.map key

theorem unmet_lt {v v' : Vectors α} (hx : key x ∈ keys)
    (hnew : key x ∉ v.visited.map key) (hmet : key x ∈ v'.visited.map key)
    (hsub : v.visited.map key ⊆ v'.visited.map key) :
    (unmet key keys v').card < (unmet key keys v).card := by
  apply Finset.card_lt_card
  rw [Finset.ssubset_iff_of_subset]
  · exact ⟨key x, Finset.mem_filter.mpr ⟨hx, hnew⟩, fun hmem => (Finset.mem_filter.mp hmem).2 hmet⟩
  · apply Finset.monotone_filter_right
    intro k _ hk hmem
    exact hk (hsub hmem)

theorem visit_finishes_of_edges {v : Vectors α}
    (hedges : ∀ y ∈ succ x, ∀ t : Vectors α, v.visited.map key ⊆ t.visited.map key →
      key x ∈ t.visited.map key →
      ∃ t', visit key succ depth y t = some t' ∧ t.visited.map key ⊆ t'.visited.map key) :
    ∃ v', visit key succ (depth + 1) x v = some v' ∧ v.visited.map key ⊆ v'.visited.map key := by
  by_cases hmem : key x ∈ v.visited.map key
  · exact ⟨v, visit_of_mem hmem, List.Subset.refl _⟩
  · have hturn : ∀ t : Vectors α, ∀ y ∈ succ x,
        v.visited.map key ⊆ t.visited.map key ∧ key x ∈ t.visited.map key →
          ∃ t', visit key succ depth y t = some t' ∧
            v.visited.map key ⊆ t'.visited.map key ∧ key x ∈ t'.visited.map key := by
      rintro t y hy ⟨hsub, hx⟩
      obtain ⟨t', hvisit, ht'⟩ := hedges y hy t hsub hx
      exact ⟨t', hvisit, List.Subset.trans hsub ht', ht' hx⟩
    obtain ⟨mid, hloop, hmid, -⟩ := foldlM_finishes _ (succ x) hturn
      (s := { v with visited := v.visited ++ [x] }) (by simp)
    refine ⟨{ mid with ordered := mid.ordered ++ [x] }, ?_, hmid⟩
    rw [visit, if_neg hmem, hloop]
    rfl

theorem visit_finishes (hkeys : ∀ q, LedTo succ q → key q ∈ keys) {v : Vectors α}
    (hx : key x ∈ keys)
    (hdepth : (unmet key keys v).card < depth) :
    ∃ v', visit key succ depth x v = some v' ∧ v.visited.map key ⊆ v'.visited.map key := by
  induction depth generalizing x v with
  | zero => exact absurd hdepth (Nat.not_lt_zero _)
  | succ depth ih =>
    by_cases hmem : key x ∈ v.visited.map key
    · exact ⟨v, visit_of_mem hmem, List.Subset.refl _⟩
    · apply visit_finishes_of_edges
      intro y hy t hsub hmet
      have hless := unmet_lt hx hmem hmet hsub
      exact ih (hkeys y ⟨x, hy⟩) (by omega)

/-- **The search ends**, whatever was met before, and also on a cyclic graph. -/
theorem visit_finishes_root (hkeys : ∀ q, LedTo succ q → key q ∈ keys)
    (hdepth : keys.card + 1 < depth) (x : α) (v : Vectors α) :
    ∃ v', visit key succ depth x v = some v' := by
  obtain ⟨depth, rfl⟩ : ∃ d, depth = d + 1 := ⟨depth - 1, by omega⟩
  have hends : ∃ v', visit key succ (depth + 1) x v = some v' ∧
      v.visited.map key ⊆ v'.visited.map key := by
    apply visit_finishes_of_edges
    intro y hy t _ _
    have hle : (unmet key keys t).card ≤ keys.card := Finset.card_filter_le _ _
    exact visit_finishes hkeys (hkeys y ⟨x, hy⟩) (by omega)
  obtain ⟨v', hvisit, -⟩ := hends
  exact ⟨v', hvisit⟩

end Openmoko.DepthFirst
