import Mathlib.Algebra.BigOperators.Group.List.Basic
import Mathlib.Algebra.Ring.Int.Defs
import Mathlib.Data.List.Dedup
import Mathlib.Data.List.Induction
import Openmoko.Fped.Tsort
import Openmoko.Library.Acyclic
import Openmoko.Library.Machine

/-!
# The order that the topological sort finds

The counters of the nodes that are left tell which of them have all predecessors in the output, and
their priorities, brought back into the range of `int`, what the edges from the output add up to.
-/

namespace Openmoko.Fped

variable {V : Type} [DecidableEq V]

def insertionOrder (calls : List (Call V)) : List V :=
  calls.foldl
    (fun order call =>
      match call with
      | .addNode user _ => if user ∈ order then order else order ++ [user]
      | .addEdge _ _ _ => order)
    []

def Call.Joins (u v : V) : Call V → Prop
  | .addNode _ _ => False
  | .addEdge origin dest _ => origin = u ∧ dest = v

instance (u v : V) (call : Call V) : Decidable (call.Joins u v) :=
  match call with
  | .addNode _ _ => inferInstanceAs (Decidable False)
  | .addEdge origin dest _ => inferInstanceAs (Decidable (origin = u ∧ dest = v))

def Call.weight : Call V → ℤ
  | .addNode _ _ => 0
  | .addEdge _ _ priority => priority

def Call.decay? (user : V) : Call V → Option Bool
  | .addNode u decay => if u = user then some decay else none
  | .addEdge _ _ _ => none

def HasEdge (calls : List (Call V)) (u v : V) : Prop := ∃ call ∈ calls, call.Joins u v

instance (calls : List (Call V)) (u v : V) : Decidable (HasEdge calls u v) :=
  inferInstanceAs (Decidable (∃ call ∈ calls, call.Joins u v))

def edgeWeight (calls : List (Call V)) (u v : V) : ℤ :=
  (calls.map fun call => if call.Joins u v then call.weight else 0).sum

def decays (calls : List (Call V)) (user : V) : Bool :=
  (calls.findSome? (Call.decay? user)).getD false

def accumulated (calls : List (Call V)) (output : List V) (v : V) : ℤ :=
  output.foldl (fun sum u => (if decays calls u then 0 else sum) + edgeWeight calls u v) 0

def Available (calls : List (Call V)) (output : List V) (v : V) : Prop :=
  v ∈ insertionOrder calls ∧ v ∉ output ∧ ∀ u, HasEdge calls u v → u ∈ output

def Picked (calls : List (Call V)) (output : List V) (v : V) : Prop :=
  Available calls output v ∧
    ∃ earlier later, insertionOrder calls = earlier ++ v :: later ∧
      (∀ u ∈ earlier, Available calls output u →
        accumulated calls output u < accumulated calls output v) ∧
      ∀ u ∈ later, Available calls output u →
        accumulated calls output u ≤ accumulated calls output v

/-- Each node once, none before a predecessor, and the right one wherever the premise holds. -/
structure SortedBy (calls : List (Call V)) (premise : List V → Prop) (res : List V) : Prop where
  nodup : res.Nodup
  complete : ∀ v, v ∈ res ↔ v ∈ insertionOrder calls
  ordered : ∀ output v rest, res = output ++ v :: rest → ∀ u, HasEdge calls u v → u ∈ output
  picked : ∀ output v rest, res = output ++ v :: rest → premise output → Picked calls output v

def FitsInt (calls : List (Call V)) (output : List V) : Prop :=
  ∀ v, Available calls output v →
    -2147483648 ≤ accumulated calls output v ∧ accumulated calls output v ≤ 2147483647

def Topological (calls : List (Call V)) (order : List V) : Prop :=
  ∀ before v after, order = before ++ v :: after → ∀ u, HasEdge calls u v → u ∈ before

def HasNodes (before : List (Call V)) : Call V → Prop
  | .addNode _ _ => True
  | .addEdge origin dest _ => origin ∈ insertionOrder before ∧ dest ∈ insertionOrder before

variable {decay : Bool}

section Concat

variable (calls : List (Call V)) (call : Call V)

theorem insertionOrder_concat_addNode (user : V) (decay : Bool) :
    insertionOrder (calls ++ [.addNode user decay]) =
      if user ∈ insertionOrder calls then insertionOrder calls
      else insertionOrder calls ++ [user] := by
  rw [insertionOrder, List.foldl_append]
  rfl

theorem insertionOrder_concat_addEdge (origin dest : V) (priority : ℤ) :
    insertionOrder (calls ++ [.addEdge origin dest priority]) = insertionOrder calls := by
  rw [insertionOrder, List.foldl_append]
  rfl

omit [DecidableEq V] in
theorem hasEdge_concat (u v : V) :
    HasEdge (calls ++ [call]) u v ↔ HasEdge calls u v ∨ call.Joins u v := by
  unfold HasEdge
  simp only [List.mem_append, List.mem_singleton, or_and_right, exists_or, exists_eq_left]

omit [DecidableEq V] in
theorem hasEdge_concat_addNode {user : V} {u v : V} :
    HasEdge (calls ++ [.addNode user decay]) u v ↔ HasEdge calls u v := by
  rw [hasEdge_concat]
  exact or_iff_left id

theorem edgeWeight_concat (u v : V) :
    edgeWeight (calls ++ [call]) u v =
      edgeWeight calls u v + if call.Joins u v then call.weight else 0 := by
  simp [edgeWeight]

theorem edgeWeight_of_no_edge {u v : V} (hno : ¬ HasEdge calls u v) : edgeWeight calls u v = 0 := by
  apply List.sum_eq_zero
  intro x hx
  obtain ⟨call, hcall, rfl⟩ := List.mem_map.mp hx
  exact if_neg fun hjoins => hno ⟨call, hcall, hjoins⟩

theorem accumulated_concat (output : List V) (u v : V) :
    accumulated calls (output ++ [u]) v =
      (if decays calls u then 0 else accumulated calls output v) + edgeWeight calls u v := by
  rw [accumulated, List.foldl_append]
  rfl

end Concat

theorem nodup_insertionOrder (calls : List (Call V)) : (insertionOrder calls).Nodup := by
  induction calls using List.reverseRecOn with
  | nil => exact List.nodup_nil
  | append_singleton calls call ih =>
    cases call with
    | addNode user decay =>
      rw [insertionOrder_concat_addNode]
      split
      · exact ih
      · rename_i hnew
        rw [← List.concat_eq_append]
        exact List.Nodup.concat hnew ih
    | addEdge origin dest priority => rwa [insertionOrder_concat_addEdge]

theorem mem_insertionOrder {calls : List (Call V)} {user : V} :
    user ∈ insertionOrder calls ↔ ∃ decay, .addNode user decay ∈ calls := by
  induction calls using List.reverseRecOn with
  | nil => simp [insertionOrder]
  | append_singleton calls call ih =>
    cases call with
    | addNode u decay =>
      rw [insertionOrder_concat_addNode]
      by_cases hmem : u ∈ insertionOrder calls
      · rw [if_pos hmem, ih]
        constructor
        · rintro ⟨d, hd⟩
          exact ⟨d, List.mem_append_left _ hd⟩
        · rintro ⟨d, hd⟩
          rcases List.mem_append.mp hd with hold | hnew
          · exact ⟨d, hold⟩
          · obtain ⟨rfl, -⟩ := Call.addNode.inj (List.mem_singleton.mp hnew)
            exact ih.mp hmem
      · rw [if_neg hmem, List.mem_append, ih]
        simp only [List.mem_append, List.mem_singleton, Call.addNode.injEq, exists_or,
          exists_and_left, exists_eq, and_true]
    | addEdge origin dest priority =>
      rw [insertionOrder_concat_addEdge, ih]
      simp

theorem decays_concat (calls : List (Call V)) (call : Call V) (user : V) :
    decays (calls ++ [call]) user =
      if user ∈ insertionOrder calls then decays calls user
      else (call.decay? user).getD false := by
  have hsome :
      (calls.findSome? (Call.decay? user)).isSome = true ↔ user ∈ insertionOrder calls := by
    rw [List.findSome?_isSome_iff, mem_insertionOrder]
    constructor
    · rintro ⟨call, hcall, hsome⟩
      cases call with
      | addNode u decay =>
        rw [Call.decay?] at hsome
        split at hsome
        · rename_i heq
          exact ⟨decay, heq ▸ hcall⟩
        · cases hsome
      | addEdge origin dest priority => cases hsome
    · rintro ⟨decay, hcall⟩
      exact ⟨_, hcall, by simp [Call.decay?]⟩
  rw [decays, decays, List.findSome?_append]
  by_cases hmem : user ∈ insertionOrder calls
  · obtain ⟨d, hd⟩ := Option.isSome_iff_exists.mp (hsome.mpr hmem)
    rw [if_pos hmem, hd]
    rfl
  · have hnone := Option.not_isSome_iff_eq_none.mp (mt hsome.mp hmem)
    rw [if_neg hmem, hnone]
    cases hdecay : call.decay? user <;> simp [hdecay]

def notYet (calls : List (Call V)) (output : List V) : List V :=
  (insertionOrder calls).filter fun v => v ∉ output

structure Tracks (calls : List (Call V)) (output : List V) (nodes : List (Node V)) : Prop where
  users : nodes.map Node.user = notYet calls output
  decay : ∀ n ∈ nodes, n.decay = decays calls n.user
  incoming : ∀ n ∈ nodes,
    n.incoming = (notYet calls output).countP fun u => HasEdge calls u n.user
  priority : ∀ n ∈ nodes, n.priority = (accumulated calls output n.user).bmod 4294967296
  targets : ∀ n ∈ nodes, (n.edges.map Edge.dest).Nodup
  edges : ∀ n ∈ nodes, ∀ v, v ∈ n.edges.map Edge.dest ↔ HasEdge calls n.user v
  weights : ∀ n ∈ nodes, ∀ e ∈ n.edges,
    e.priority.bmod 4294967296 = (edgeWeight calls n.user e.dest).bmod 4294967296

theorem mem_notYet {calls : List (Call V)} {output : List V} {v : V} :
    v ∈ notYet calls output ↔ v ∈ insertionOrder calls ∧ v ∉ output := by
  simp [notYet]

theorem notYet_nil (calls : List (Call V)) : notYet calls [] = insertionOrder calls := by
  simp [notYet]

theorem nodup_notYet (calls : List (Call V)) (output : List V) : (notYet calls output).Nodup :=
  (nodup_insertionOrder calls).filter _

theorem HasEdge.ends {calls : List (Call V)} (hcalls : Explained HasNodes calls) {u v : V}
    (hedge : HasEdge calls u v) : u ∈ insertionOrder calls ∧ v ∈ insertionOrder calls := by
  obtain ⟨call, hcall, hjoins⟩ := hedge
  obtain ⟨before, after, rfl⟩ := List.append_of_mem hcall
  have hnodes := hcalls before call after rfl
  have hmono : ∀ w ∈ insertionOrder before, w ∈ insertionOrder (before ++ call :: after) := by
    intro w hw
    obtain ⟨decay, hadd⟩ := mem_insertionOrder.mp hw
    exact mem_insertionOrder.mpr ⟨decay, List.mem_append_left _ hadd⟩
  cases call with
  | addNode user decay => cases hjoins
  | addEdge origin dest priority =>
    obtain ⟨rfl, rfl⟩ := hjoins
    exact ⟨hmono _ hnodes.1, hmono _ hnodes.2⟩

theorem countP_filter_ne {l : List V} (hnodup : l.Nodup) {a : V} (ha : a ∈ l) (p : V → Bool) :
    l.countP p = (l.filter fun u => u ≠ a).countP p + if p a then 1 else 0 := by
  have hfilter : (l.filter fun u => decide (u ≠ a)) = l.erase a := by
    rw [hnodup.erase_eq_filter]
    congr 1
    ext u
    by_cases heq : u = a
    · simp [heq]
    · simp [heq]
  rw [hfilter, (List.perm_cons_erase ha).countP_eq, List.countP_cons]

theorem countP_or_eq {l : List V} (hnodup : l.Nodup) {a : V} (ha : a ∈ l) {p q : V → Bool}
    (hp : p a = false) (hq : ∀ u, q u = true ↔ p u = true ∨ u = a) :
    l.countP q = l.countP p + 1 := by
  have hqa : q a = true := (hq a).mpr (Or.inr rfl)
  rw [countP_filter_ne hnodup ha q, countP_filter_ne hnodup ha p, hp, hqa]
  have hsame : (l.filter fun u => decide (u ≠ a)).countP q =
      (l.filter fun u => decide (u ≠ a)).countP p := by
    apply List.countP_congr
    intro u hu
    have hne : u ≠ a := by simpa using (List.mem_filter.mp hu).2
    rw [hq u, or_iff_left hne]
  rw [hsame]
  rfl

/-! ### Building the graph -/

section Build

variable {calls : List (Call V)} {nodes : List (Node V)}

variable {user : V}

theorem mem_updateNode {f : Node V → Node V} {n : Node V} :
    n ∈ updateNode nodes user f ↔ ∃ m ∈ nodes, n = if m.user = user then f m else m := by
  simp [updateNode, eq_comm]

theorem map_user_updateNode {f : Node V → Node V} (hf : ∀ n, (f n).user = n.user) :
    (updateNode nodes user f).map Node.user = nodes.map Node.user := by
  rw [updateNode, List.map_map]
  apply List.map_congr_left
  intro n hn
  rw [Function.comp_apply]
  split
  · exact hf n
  · rfl

theorem Tracks.mem_user (htracks : Tracks calls [] nodes) {n : Node V} (hn : n ∈ nodes) :
    n.user ∈ insertionOrder calls := by
  rw [← notYet_nil, ← htracks.users]
  exact List.mem_map_of_mem hn

theorem tracks_addNode_old (hold : user ∈ insertionOrder calls)
    (htracks : Tracks calls [] nodes) : Tracks (calls ++ [.addNode user decay]) [] nodes := by
  have horder : insertionOrder (calls ++ [.addNode user decay]) = insertionOrder calls := by
    rw [insertionOrder_concat_addNode, if_pos hold]
  constructor
  · rw [notYet_nil, horder, ← notYet_nil, htracks.users]
  · intro n hn
    rw [decays_concat, if_pos (htracks.mem_user hn), htracks.decay n hn]
  · intro n hn
    simp only [notYet_nil, horder, hasEdge_concat_addNode]
    rw [htracks.incoming n hn, notYet_nil]
  · exact htracks.priority
  · exact htracks.targets
  · intro n hn v
    rw [hasEdge_concat_addNode, htracks.edges n hn v]
  · intro n hn e he
    rw [htracks.weights n hn e he, edgeWeight_concat]
    simp [Call.Joins]

theorem tracks_addNode_new (hcalls : Explained HasNodes calls)
    (hnew : user ∉ insertionOrder calls) (htracks : Tracks calls [] nodes) :
    Tracks (calls ++ [.addNode user decay]) []
      (nodes ++ [{ user := user, edges := [], incoming := 0, priority := 0, decay := decay }]) := by
  have horder :
      insertionOrder (calls ++ [.addNode user decay]) = insertionOrder calls ++ [user] := by
    rw [insertionOrder_concat_addNode, if_neg hnew]
  have hout : ∀ v, ¬ HasEdge calls user v := fun v hedge => hnew (hedge.ends hcalls).1
  have hin : ∀ u, ¬ HasEdge calls u user := fun u hedge => hnew (hedge.ends hcalls).2
  constructor
  · rw [List.map_append, notYet_nil, horder, htracks.users, notYet_nil]
    rfl
  · intro n hn
    rcases List.mem_append.mp hn with hold | hlast
    · rw [decays_concat, if_pos (htracks.mem_user hold), htracks.decay n hold]
    · rw [List.mem_singleton.mp hlast, decays_concat, if_neg hnew]
      simp [Call.decay?]
  · intro n hn
    simp only [notYet_nil, horder, hasEdge_concat_addNode, List.countP_append]
    rcases List.mem_append.mp hn with hold | hlast
    · rw [htracks.incoming n hold, notYet_nil]
      simp [hout]
    · rw [List.mem_singleton.mp hlast]
      simp [hin]
  · intro n hn
    rcases List.mem_append.mp hn with hold | hlast
    · exact htracks.priority n hold
    · rw [List.mem_singleton.mp hlast]
      rfl
  · intro n hn
    rcases List.mem_append.mp hn with hold | hlast
    · exact htracks.targets n hold
    · rw [List.mem_singleton.mp hlast]
      exact List.nodup_nil
  · intro n hn v
    rw [hasEdge_concat_addNode]
    rcases List.mem_append.mp hn with hold | hlast
    · exact htracks.edges n hold v
    · rw [List.mem_singleton.mp hlast]
      simp [hout]
  · intro n hn e he
    rcases List.mem_append.mp hn with hold | hlast
    · rw [htracks.weights n hold e he, edgeWeight_concat]
      simp [Call.Joins]
    · rw [List.mem_singleton.mp hlast] at he
      cases he

theorem addInt_bmod {a b x y : ℤ} (ha : a.bmod 4294967296 = x.bmod 4294967296)
    (hb : b.bmod 4294967296 = y.bmod 4294967296) :
    addInt a b = (x + y).bmod 4294967296 := by
  rw [addInt, Int.add_bmod, ha, hb, ← Int.add_bmod]

theorem tracks_addEdge_merge {origin dest : V} {priority : ℤ} (hold : HasEdge calls origin dest)
    (htracks : Tracks calls [] nodes) :
    Tracks (calls ++ [.addEdge origin dest priority]) []
      (updateNode nodes origin fun node =>
        { node with edges := raiseEdge node.edges dest priority }) := by
  have hedges : ∀ u v,
      HasEdge (calls ++ [.addEdge origin dest priority]) u v ↔ HasEdge calls u v := by
    intro u v
    rw [hasEdge_concat]
    apply or_iff_left_of_imp
    rintro ⟨rfl, rfl⟩
    exact hold
  have hdests : ∀ edges : List (Edge V),
      (raiseEdge edges dest priority).map Edge.dest = edges.map Edge.dest := by
    intro edges
    rw [raiseEdge, List.map_map]
    apply List.map_congr_left
    intro e he
    rw [Function.comp_apply]
    split <;> rfl
  have horder := insertionOrder_concat_addEdge calls origin dest priority
  constructor
  · rw [map_user_updateNode (by simp), notYet_nil, horder, ← notYet_nil, htracks.users]
  · intro n hn
    obtain ⟨m, hm, rfl⟩ := mem_updateNode.mp hn
    rw [apply_ite Node.decay, apply_ite Node.user, ite_self, ite_self, decays_concat,
      if_pos (htracks.mem_user hm), htracks.decay m hm]
  · intro n hn
    obtain ⟨m, hm, rfl⟩ := mem_updateNode.mp hn
    rw [apply_ite Node.incoming, apply_ite Node.user, ite_self, ite_self]
    simp only [notYet_nil, horder, hedges]
    rw [htracks.incoming m hm, notYet_nil]
  · intro n hn
    obtain ⟨m, hm, rfl⟩ := mem_updateNode.mp hn
    rw [apply_ite Node.priority, apply_ite Node.user, ite_self, ite_self]
    exact htracks.priority m hm
  · intro n hn
    obtain ⟨m, hm, rfl⟩ := mem_updateNode.mp hn
    rw [apply_ite Node.edges, apply_ite (List.map Edge.dest), hdests, ite_self]
    exact htracks.targets m hm
  · intro n hn v
    obtain ⟨m, hm, rfl⟩ := mem_updateNode.mp hn
    rw [apply_ite Node.edges, apply_ite (List.map Edge.dest), apply_ite Node.user, hdests, ite_self,
      ite_self, hedges]
    exact htracks.edges m hm v
  · intro n hn e he
    obtain ⟨m, hm, rfl⟩ := mem_updateNode.mp hn
    rw [apply_ite Node.user, ite_self, edgeWeight_concat]
    by_cases huser : m.user = origin
    · rw [if_pos huser] at he
      obtain ⟨e', he', rfl⟩ := List.mem_map.mp he
      have hweight := htracks.weights m hm e' he'
      by_cases hdest : e'.dest = dest
      · rw [if_pos hdest, if_pos ⟨huser.symm, hdest.symm⟩]
        dsimp only
        rw [addInt_bmod hweight rfl, Int.bmod_bmod]
        rfl
      · rw [if_neg hdest, if_neg fun hjoins => hdest hjoins.2.symm, add_zero]
        exact hweight
    · rw [if_neg huser] at he
      rw [if_neg fun hjoins => huser hjoins.1.symm, add_zero]
      exact htracks.weights m hm e he

theorem tracks_addEdge_new {origin dest : V} {priority : ℤ} (hnew : ¬ HasEdge calls origin dest)
    (horigin : origin ∈ insertionOrder calls) (htracks : Tracks calls [] nodes) :
    Tracks (calls ++ [.addEdge origin dest priority]) []
      (updateNode
        (updateNode nodes origin fun node =>
          { node with edges := node.edges ++ [{ dest := dest, priority := priority }] })
        dest fun node => { node with incoming := node.incoming + 1 }) := by
  have hedges : ∀ u v, HasEdge (calls ++ [.addEdge origin dest priority]) u v ↔
      HasEdge calls u v ∨ origin = u ∧ dest = v := hasEdge_concat calls _
  have horder := insertionOrder_concat_addEdge calls origin dest priority
  have hmem : ∀ {n}, n ∈ updateNode
        (updateNode nodes origin fun node =>
          { node with edges := node.edges ++ [{ dest := dest, priority := priority }] })
        dest (fun node => { node with incoming := node.incoming + 1 }) →
      ∃ m ∈ nodes, n = { m with
        edges := if m.user = origin then m.edges ++ [{ dest := dest, priority := priority }]
          else m.edges
        incoming := if m.user = dest then m.incoming + 1 else m.incoming } := by
    intro n hn
    obtain ⟨m, hm, rfl⟩ := mem_updateNode.mp hn
    obtain ⟨k, hk, rfl⟩ := mem_updateNode.mp hm
    refine ⟨k, hk, ?_⟩
    by_cases h1 : k.user = origin
    · by_cases h2 : k.user = dest
      · simp only [if_pos h1, if_pos h2]
      · simp only [if_pos h1, if_neg h2]
    · by_cases h2 : k.user = dest
      · simp only [if_neg h1, if_pos h2]
      · simp only [if_neg h1, if_neg h2]
  constructor
  · rw [map_user_updateNode (by simp), map_user_updateNode (by simp), notYet_nil, horder,
      ← notYet_nil, htracks.users]
  · intro n hn
    obtain ⟨m, hm, rfl⟩ := hmem hn
    rw [decays_concat, if_pos (htracks.mem_user hm), htracks.decay m hm]
  · intro n hn
    obtain ⟨m, hm, rfl⟩ := hmem hn
    dsimp only
    rw [notYet_nil, horder, htracks.incoming m hm, notYet_nil]
    by_cases hdest : m.user = dest
    · rw [if_pos hdest]
      symm
      apply countP_or_eq (nodup_insertionOrder calls) horigin
      · rw [hdest, decide_eq_false_iff_not]
        exact hnew
      · intro u
        rw [decide_eq_true_iff, decide_eq_true_iff, hedges]
        simp [hdest, eq_comm]
    · rw [if_neg hdest]
      apply List.countP_congr
      intro u hu
      rw [decide_eq_true_iff, decide_eq_true_iff, hedges]
      simp [Ne.symm hdest]
  · intro n hn
    obtain ⟨m, hm, rfl⟩ := hmem hn
    exact htracks.priority m hm
  · intro n hn
    obtain ⟨m, hm, rfl⟩ := hmem hn
    dsimp only
    by_cases huser : m.user = origin
    · have hnot : dest ∉ m.edges.map Edge.dest := by
        rw [htracks.edges m hm, huser]
        exact hnew
      rw [if_pos huser, List.map_append, List.map_singleton, ← List.concat_eq_append]
      exact List.Nodup.concat hnot (htracks.targets m hm)
    · rw [if_neg huser]
      exact htracks.targets m hm
  · intro n hn v
    obtain ⟨m, hm, rfl⟩ := hmem hn
    dsimp only
    rw [hedges, ← htracks.edges m hm]
    by_cases huser : m.user = origin
    · simp [huser, eq_comm]
    · simp [huser, Ne.symm huser]
  · intro n hn e he
    obtain ⟨m, hm, rfl⟩ := hmem hn
    dsimp only at he ⊢
    rw [edgeWeight_concat]
    by_cases huser : m.user = origin
    · rw [if_pos huser] at he
      rcases List.mem_append.mp he with hold | hlast
      · have hother : dest ≠ e.dest := by
          rintro rfl
          apply hnew
          rw [← huser, ← htracks.edges m hm]
          exact List.mem_map_of_mem hold
        rw [if_neg fun hjoins => hother hjoins.2, add_zero]
        exact htracks.weights m hm e hold
      · rw [List.mem_singleton.mp hlast, huser, edgeWeight_of_no_edge calls hnew, zero_add,
          if_pos ⟨rfl, rfl⟩]
        rfl
    · rw [if_neg huser] at he
      rw [if_neg fun hjoins => huser hjoins.1.symm, add_zero]
      exact htracks.weights m hm e he

end Build

theorem tracks_buildTsort {calls : List (Call V)} (hcalls : Explained HasNodes calls) :
    Tracks calls [] (buildTsort calls).nodes ∧
      (buildTsort calls).nNodes = (buildTsort calls).nodes.length := by
  induction calls using List.reverseRecOn with
  | nil =>
    refine ⟨⟨rfl, ?_, ?_, ?_, ?_, ?_, ?_⟩, rfl⟩
    all_goals
      intro n hn
      cases hn
  | append_singleton calls call ih =>
    rw [explained_append, explained_singleton, List.append_nil] at hcalls
    obtain ⟨htracks, hlength⟩ := ih hcalls.1
    have hbuild : buildTsort (calls ++ [call]) = call.run (buildTsort calls) := by
      rw [buildTsort, List.foldl_append]
      rfl
    rw [hbuild]
    cases call with
    | addNode user decay =>
      rw [Call.run, addNode, htracks.users, notYet_nil]
      by_cases hold : user ∈ insertionOrder calls
      · rw [if_pos hold]
        exact ⟨tracks_addNode_old hold htracks, hlength⟩
      · rw [if_neg hold]
        refine ⟨tracks_addNode_new hcalls.1 hold htracks, ?_⟩
        simp [hlength]
    | addEdge origin dest priority =>
      obtain ⟨horigin, -⟩ := hcalls.2
      obtain ⟨node, hfind⟩ : ∃ node,
          (buildTsort calls).nodes.find? (fun node => node.user = origin) = some node := by
        rw [← Option.isSome_iff_exists, List.find?_isSome]
        rw [← notYet_nil, ← htracks.users] at horigin
        obtain ⟨n, hn, heq⟩ := List.mem_map.mp horigin
        exact ⟨n, hn, decide_eq_true heq⟩
      have hnode := List.mem_of_find?_eq_some hfind
      have huser : node.user = origin := by simpa using List.find?_some hfind
      have hdest : dest ∈ node.edges.map Edge.dest ↔ HasEdge calls origin dest := by
        rw [htracks.edges node hnode, huser]
      rw [Call.run, addEdge, hfind]
      dsimp only
      by_cases hold : HasEdge calls origin dest
      · rw [if_pos (hdest.mpr hold)]
        refine ⟨tracks_addEdge_merge hold htracks, ?_⟩
        simp [updateNode, hlength]
      · rw [if_neg (mt hdest.mp hold)]
        refine ⟨tracks_addEdge_new hold horigin htracks, ?_⟩
        simp [updateNode, hlength]

section Search

omit [DecidableEq V]

variable {nodes : List (Node V)}

theorem selectFirst_concat (nodes : List (Node V)) (n : Node V) :
    selectFirst (nodes ++ [n]) = better (selectFirst nodes) n := by
  rw [selectFirst, List.foldl_append]
  rfl

theorem better_of_incoming {first : Option (Node V)} {n : Node V} (hn : n.incoming ≠ 0) :
    better first n = first := if_pos hn

theorem better_none {n : Node V} (hn : n.incoming = 0) : better none n = some n :=
  if_neg (not_not.mpr hn)

theorem better_some {node n : Node V} (hn : n.incoming = 0) :
    better (some node) n = if node.priority < n.priority then some n else some node :=
  if_neg (not_not.mpr hn)

theorem incoming_of_selectFirst_none (hnone : selectFirst nodes = none) :
    ∀ n ∈ nodes, n.incoming ≠ 0 := by
  induction nodes using List.reverseRecOn with
  | nil =>
    intro n hn
    cases hn
  | append_singleton nodes last ih =>
    rw [selectFirst_concat] at hnone
    by_cases hlast : last.incoming = 0
    · cases hfirst : selectFirst nodes with
      | none =>
        rw [hfirst, better_none hlast] at hnone
        cases hnone
      | some node =>
        rw [hfirst, better_some hlast] at hnone
        split at hnone <;> cases hnone
    · rw [better_of_incoming hlast] at hnone
      intro n hn
      rcases List.mem_append.mp hn with hold | hsingle
      · exact ih hnone n hold
      · rwa [List.mem_singleton.mp hsingle]

theorem selectFirst_spec {first : Node V} (hfirst : selectFirst nodes = some first) :
    first.incoming = 0 ∧ ∃ earlier later, nodes = earlier ++ first :: later ∧
      (∀ n ∈ earlier, n.incoming = 0 → n.priority < first.priority) ∧
      ∀ n ∈ later, n.incoming = 0 → n.priority ≤ first.priority := by
  induction nodes using List.reverseRecOn generalizing first with
  | nil => cases hfirst
  | append_singleton nodes last ih =>
    rw [selectFirst_concat] at hfirst
    -- the last node changes nothing, or is the first found, or is better than all before
    have hsame : selectFirst nodes = some first →
        (last.incoming = 0 → last.priority ≤ first.priority) →
        first.incoming = 0 ∧ ∃ earlier later, nodes ++ [last] = earlier ++ first :: later ∧
          (∀ n ∈ earlier, n.incoming = 0 → n.priority < first.priority) ∧
          ∀ n ∈ later, n.incoming = 0 → n.priority ≤ first.priority := by
      intro hold hle
      obtain ⟨hzero, earlier, later, rfl, hlt, hall⟩ := ih hold
      refine ⟨hzero, earlier, later ++ [last], by simp, hlt, ?_⟩
      intro n hn
      rcases List.mem_append.mp hn with hlater | hsingle
      · exact hall n hlater
      · rwa [List.mem_singleton.mp hsingle]
    by_cases hlast : last.incoming = 0
    · cases hold : selectFirst nodes with
      | none =>
        rw [hold, better_none hlast] at hfirst
        obtain rfl := Option.some.inj hfirst
        refine ⟨hlast, nodes, [], rfl, ?_, fun n hn => by cases hn⟩
        exact fun n hn hzero => absurd hzero (incoming_of_selectFirst_none hold n hn)
      | some node =>
        rw [hold, better_some hlast] at hfirst
        by_cases hlt : node.priority < last.priority
        · rw [if_pos hlt] at hfirst
          obtain rfl := Option.some.inj hfirst
          obtain ⟨-, earlier, later, hnodes, hbefore, hafter⟩ := ih hold
          refine ⟨hlast, nodes, [], rfl, ?_, fun n hn => by cases hn⟩
          intro n hn hzero
          rw [hnodes] at hn
          rcases List.mem_append.mp hn with hearlier | hrest
          · exact (hbefore n hearlier hzero).trans hlt
          · rcases List.mem_cons.mp hrest with rfl | hlater
            · exact hlt
            · exact lt_of_le_of_lt (hafter n hlater hzero) hlt
        · rw [if_neg hlt] at hfirst
          obtain rfl := Option.some.inj hfirst
          exact hsame hold fun _ => not_lt.mp hlt
    · rw [better_of_incoming hlast] at hfirst
      exact hsame hfirst fun hzero => absurd hzero hlast

end Search

/-! ### Output of a node -/

def releaseNode (edges : List (Edge V)) (n : Node V) : Node V :=
  ((edges.find? fun edge => edge.dest = n.user).map fun edge =>
    { n with
      incoming := n.incoming - 1
      priority := addInt n.priority edge.priority }).getD n

theorem release_eq_map {edges : List (Edge V)} (hnodup : (edges.map Edge.dest).Nodup)
    (nodes : List (Node V)) : release edges nodes = nodes.map (releaseNode edges) := by
  induction edges generalizing nodes with
  | nil => exact (List.map_id nodes).symm
  | cons edge edges ih =>
    rw [List.map_cons, List.nodup_cons] at hnodup
    rw [release, List.foldl_cons]
    change release edges _ = _
    rw [ih hnodup.2, updateNode, List.map_map]
    apply List.map_congr_left
    intro n hn
    rw [Function.comp_apply]
    by_cases heq : n.user = edge.dest
    · -- no other edge leads there
      have hnone : edges.find? (fun e => decide (e.dest = n.user)) = none := by
        rw [List.find?_eq_none]
        intro e he hdest
        apply hnodup.1
        rw [← heq, ← of_decide_eq_true hdest]
        exact List.mem_map_of_mem he
      rw [if_pos heq, releaseNode, releaseNode, List.find?_cons_of_pos (by simp [heq])]
      dsimp only
      rw [hnone]
      rfl
    · rw [if_neg heq, releaseNode, releaseNode,
        List.find?_cons_of_neg (by simpa [eq_comm] using heq)]

theorem releaseNode_cases (edges : List (Edge V)) (n : Node V) :
    (∃ e ∈ edges, e.dest = n.user ∧ releaseNode edges n =
      { n with incoming := n.incoming - 1, priority := addInt n.priority e.priority }) ∨
    n.user ∉ edges.map Edge.dest ∧ releaseNode edges n = n := by
  cases hfind : edges.find? fun edge => edge.dest = n.user with
  | none =>
    right
    rw [List.find?_eq_none] at hfind
    constructor
    · intro hmem
      obtain ⟨e, he, hdest⟩ := List.mem_map.mp hmem
      exact hfind e he (decide_eq_true hdest)
    · rw [releaseNode, List.find?_eq_none.mpr hfind]
      rfl
  | some e =>
    left
    refine ⟨e, List.mem_of_find?_eq_some hfind, by simpa using List.find?_some hfind, ?_⟩
    rw [releaseNode, hfind]
    rfl

def decayed (first n : Node V) : Node V := if first.decay then { n with priority := 0 } else n

theorem issue_eq_map {first : Node V} (hnodup : (first.edges.map Edge.dest).Nodup)
    (nodes : List (Node V)) :
    issue first nodes = (nodes.filter fun n => n.user ≠ first.user).map fun n =>
      releaseNode first.edges (decayed first n) := by
  rw [issue, release_eq_map hnodup]
  cases hdecay : first.decay with
  | true =>
    simp only [if_true, List.filter_map, List.map_map, decayed, hdecay]
    rfl
  | false => simp [decayed, hdecay]

section Step

variable {calls : List (Call V)} {output : List V} {nodes : List (Node V)}

theorem notYet_concat (calls : List (Call V)) (output : List V) (u : V) :
    notYet calls (output ++ [u]) = (notYet calls output).filter fun v => v ≠ u := by
  rw [notYet, notYet, List.filter_filter]
  congr 1
  ext v
  simp only [List.mem_append, List.mem_singleton, not_or]
  by_cases heq : v = u
  · simp [heq]
  · simp [heq]

theorem Tracks.mem_notYet (htracks : Tracks calls output nodes) {n : Node V} (hn : n ∈ nodes) :
    n.user ∈ notYet calls output := by
  rw [← htracks.users]
  exact List.mem_map_of_mem hn

theorem Tracks.available_iff (hcalls : Explained HasNodes calls)
    (htracks : Tracks calls output nodes) {n : Node V} (hn : n ∈ nodes) :
    n.incoming = 0 ↔ Available calls output n.user := by
  obtain ⟨horder, houtput⟩ := Fped.mem_notYet.mp (htracks.mem_notYet hn)
  rw [htracks.incoming n hn, List.countP_eq_zero]
  constructor
  · intro hnone
    refine ⟨horder, houtput, fun u hedge => ?_⟩
    by_contra hu
    exact hnone u (Fped.mem_notYet.mpr ⟨(hedge.ends hcalls).1, hu⟩) (decide_eq_true hedge)
  · intro havailable u hu hedge
    exact (Fped.mem_notYet.mp hu).2 (havailable.2.2 u (of_decide_eq_true hedge))

theorem tracks_issue (htracks : Tracks calls output nodes) {first : Node V}
    (hfirst : first ∈ nodes) : Tracks calls (output ++ [first.user]) (issue first nodes) := by
  have hmem : ∀ {n}, n ∈ issue first nodes → ∃ m ∈ nodes, m.user ≠ first.user ∧
      n = releaseNode first.edges (decayed first m) := by
    intro n hn
    rw [issue_eq_map (htracks.targets first hfirst)] at hn
    obtain ⟨m, hm, rfl⟩ := List.mem_map.mp hn
    obtain ⟨hm, hne⟩ := List.mem_filter.mp hm
    exact ⟨m, hm, of_decide_eq_true hne, rfl⟩
  have hdecayed : ∀ m, (decayed first m).user = m.user ∧ (decayed first m).edges = m.edges ∧
      (decayed first m).decay = m.decay ∧ (decayed first m).incoming = m.incoming := by
    intro m
    unfold decayed
    split <;> exact ⟨rfl, rfl, rfl, rfl⟩
  have hkept : ∀ m, (releaseNode first.edges (decayed first m)).user = m.user ∧
      (releaseNode first.edges (decayed first m)).edges = m.edges ∧
      (releaseNode first.edges (decayed first m)).decay = m.decay := by
    intro m
    obtain ⟨huser, hedges, hdecay, -⟩ := hdecayed m
    rcases releaseNode_cases first.edges (decayed first m) with ⟨e, -, -, heq⟩ | ⟨-, heq⟩
    · rw [heq]
      exact ⟨huser, hedges, hdecay⟩
    · rw [heq]
      exact ⟨huser, hedges, hdecay⟩
  constructor
  · rw [issue_eq_map (htracks.targets first hfirst), List.map_map, notYet_concat, ← htracks.users,
      List.filter_map]
    apply List.map_congr_left
    intro n hn
    exact (hkept n).1
  · intro n hn
    obtain ⟨m, hm, -, rfl⟩ := hmem hn
    rw [(hkept m).1, (hkept m).2.2, htracks.decay m hm]
  · intro n hn
    obtain ⟨m, hm, -, rfl⟩ := hmem hn
    have hcount := countP_filter_ne (nodup_notYet calls output) (htracks.mem_notYet hfirst)
      fun u => HasEdge calls u m.user
    rw [(hkept m).1, notYet_concat]
    rw [← htracks.incoming m hm] at hcount
    rcases releaseNode_cases first.edges (decayed first m) with ⟨e, he, hdest, heq⟩ | ⟨hno, heq⟩
    · have hedge : HasEdge calls first.user m.user := by
        rw [← htracks.edges first hfirst, ← (hdecayed m).1, ← hdest]
        exact List.mem_map_of_mem he
      rw [if_pos (decide_eq_true hedge)] at hcount
      rw [heq]
      dsimp only
      rw [(hdecayed m).2.2.2]
      omega
    · rw [(hdecayed m).1, htracks.edges first hfirst] at hno
      rw [if_neg (by simpa using hno)] at hcount
      rw [heq, (hdecayed m).2.2.2]
      exact hcount
  · intro n hn
    obtain ⟨m, hm, -, rfl⟩ := hmem hn
    have hpriority : (decayed first m).priority.bmod 4294967296 =
        (if decays calls first.user then 0 else accumulated calls output m.user).bmod
          4294967296 := by
      rw [decayed, htracks.decay first hfirst]
      split
      · rfl
      · rw [htracks.priority m hm, Int.bmod_bmod]
    rw [(hkept m).1, accumulated_concat]
    rcases releaseNode_cases first.edges (decayed first m) with ⟨e, he, hdest, heq⟩ | ⟨hno, heq⟩
    · rw [heq]
      dsimp only
      rw [(hdecayed m).1] at hdest
      rw [← hdest] at hpriority ⊢
      exact addInt_bmod hpriority (htracks.weights first hfirst e he)
    · rw [(hdecayed m).1, htracks.edges first hfirst] at hno
      rw [heq, edgeWeight_of_no_edge calls hno, add_zero, ← hpriority, decayed]
      split
      · rfl
      · rw [htracks.priority m hm, Int.bmod_bmod]
  · intro n hn
    obtain ⟨m, hm, -, rfl⟩ := hmem hn
    rw [(hkept m).2.1]
    exact htracks.targets m hm
  · intro n hn
    obtain ⟨m, hm, -, rfl⟩ := hmem hn
    rw [(hkept m).1, (hkept m).2.1]
    exact htracks.edges m hm
  · intro n hn
    obtain ⟨m, hm, -, rfl⟩ := hmem hn
    rw [(hkept m).1, (hkept m).2.1]
    exact htracks.weights m hm

theorem picked_selectFirst (hcalls : Explained HasNodes calls) (htracks : Tracks calls output nodes)
    {first : Node V} (hfirst : selectFirst nodes = some first) :
    first ∈ nodes ∧ Available calls output first.user ∧
      (FitsInt calls output → Picked calls output first.user) := by
  obtain ⟨hzero, earlier, later, rfl, hbefore, hafter⟩ := selectFirst_spec hfirst
  have hmem : first ∈ earlier ++ first :: later := List.mem_append_right _ List.mem_cons_self
  have havailable := (htracks.available_iff hcalls hmem).mp hzero
  refine ⟨hmem, havailable, fun hfits => ⟨havailable, ?_⟩⟩
  have hexact : ∀ n ∈ earlier ++ first :: later, Available calls output n.user →
      n.priority = accumulated calls output n.user := by
    intro n hn havail
    obtain ⟨hlow, hhigh⟩ := hfits n.user havail
    rw [htracks.priority n hn, Int.bmod_eq_of_le (by omega) (by omega)]
  have husers := htracks.users
  rw [List.map_append, List.map_cons] at husers
  obtain ⟨l₁, l₂, horder, h₁, h₂⟩ := List.filter_eq_append_iff.mp husers.symm
  obtain ⟨m₁, m₂, rfl, hskipped, -, h₃⟩ := List.filter_eq_cons_iff.mp h₂
  refine ⟨l₁ ++ m₁, m₂, by simp [horder], ?_, ?_⟩
  · intro u hu havail
    have hleft : u ∈ l₁ := by
      rcases List.mem_append.mp hu with hl | hm
      · exact hl
      · exact absurd (decide_eq_true havail.2.1) (hskipped u hm)
    have hu' : u ∈ earlier.map Node.user := by
      rw [← h₁]
      exact List.mem_filter.mpr ⟨hleft, decide_eq_true havail.2.1⟩
    obtain ⟨n, hn, rfl⟩ := List.mem_map.mp hu'
    have hn' : n ∈ earlier ++ first :: later := List.mem_append_left _ hn
    rw [← hexact n hn' havail, ← hexact first hmem havailable]
    exact hbefore n hn ((htracks.available_iff hcalls hn').mpr havail)
  · intro u hu havail
    have hu' : u ∈ later.map Node.user := by
      rw [← h₃]
      exact List.mem_filter.mpr ⟨hu, decide_eq_true havail.2.1⟩
    obtain ⟨n, hn, rfl⟩ := List.mem_map.mp hu'
    have hn' : n ∈ earlier ++ first :: later :=
      List.mem_append_right _ (List.mem_cons_of_mem _ hn)
    rw [← hexact n hn' havail, ← hexact first hmem havailable]
    exact hafter n hn ((htracks.available_iff hcalls hn').mpr havail)

end Step

/-! ### The whole sort -/

theorem sortLoop_spec {calls : List (Call V)} (hcalls : Explained HasNodes calls) (room : ℕ)
    {output : List V} {nodes : List (Node V)} (htracks : Tracks calls output nodes)
    (hroom : nodes.length ≤ room) :
    Tracks calls (output ++ (sortLoop room nodes).1) (sortLoop room nodes).2 ∧
      (∀ n ∈ (sortLoop room nodes).2, n.incoming ≠ 0) ∧
      ∀ before v after, (sortLoop room nodes).1 = before ++ v :: after →
        Available calls (output ++ before) v ∧
          (FitsInt calls (output ++ before) → Picked calls (output ++ before) v) := by
  have hstop : (∀ n ∈ nodes, n.incoming ≠ 0) →
      Tracks calls (output ++ []) nodes ∧ (∀ n ∈ nodes, n.incoming ≠ 0) ∧
        ∀ before v after, [] = before ++ v :: after →
          Available calls (output ++ before) v ∧
            (FitsInt calls (output ++ before) → Picked calls (output ++ before) v) := by
    intro hall
    rw [List.append_nil]
    exact ⟨htracks, hall, fun before v after hnil => by simp at hnil⟩
  induction room generalizing output nodes with
  | zero =>
    apply hstop
    obtain rfl := List.length_eq_zero_iff.mp (Nat.le_zero.mp hroom)
    intro n hn
    cases hn
  | succ room ih =>
    rw [sortLoop]
    cases hfirst : selectFirst nodes with
    | none => exact hstop (incoming_of_selectFirst_none hfirst)
    | some first =>
      obtain ⟨hmem, havailable, hpicked⟩ := picked_selectFirst hcalls htracks hfirst
      have hnext := tracks_issue htracks hmem
      have hshorter : (issue first nodes).length < nodes.length := by
        rw [issue_eq_map (htracks.targets first hmem), List.length_map]
        apply List.length_filter_lt_length_iff_exists.mpr
        exact ⟨first, hmem, by simp⟩
      obtain ⟨hend, hleft, hall⟩ := ih hnext (by omega) fun hstuck =>
        ⟨by rwa [List.append_nil], hstuck, fun before v after hnil => by simp at hnil⟩
      refine ⟨?_, hleft, ?_⟩
      · simpa using hend
      · intro before v after heq
        dsimp only at heq
        cases before with
        | nil =>
          obtain ⟨rfl, -⟩ := List.cons.inj heq
          rw [List.append_nil]
          exact ⟨havailable, hpicked⟩
        | cons u before =>
          obtain ⟨rfl, hrest⟩ := List.cons.inj heq
          have hturn := hall before v after hrest
          rwa [List.append_assoc, List.singleton_append] at hturn

theorem nodup_of_new {α : Type} {l : List α}
    (hnew : ∀ before v after, l = before ++ v :: after → v ∉ before) : l.Nodup := by
  induction l using List.reverseRecOn with
  | nil => exact List.nodup_nil
  | append_singleton l last ih =>
    rw [← List.concat_eq_append]
    apply List.Nodup.concat (hnew l last [] rfl)
    apply ih
    rintro before v after rfl
    exact hnew before v (after ++ [last]) (by simp)

section Results

variable {calls : List (Call V)}

theorem endTsort_spec (hcalls : Explained HasNodes calls) :
    (endTsort (buildTsort calls) = none → ¬ Acyclic (HasEdge calls)) ∧
      ∀ res, endTsort (buildTsort calls) = some res → SortedBy calls (FitsInt calls) res := by
  obtain ⟨htracks, hlength⟩ := tracks_buildTsort hcalls
  obtain ⟨hend, hleft, hall⟩ := sortLoop_spec hcalls _ htracks (Nat.le_of_eq hlength.symm)
  rw [List.nil_append] at hend
  simp only [List.nil_append] at hall
  have hsort : endTsort (buildTsort calls) =
      if (sortLoop (buildTsort calls).nNodes (buildTsort calls).nodes).2 = [] then
        some (sortLoop (buildTsort calls).nNodes (buildTsort calls).nodes).1
      else none := rfl
  by_cases hnil : (sortLoop (buildTsort calls).nNodes (buildTsort calls).nodes).2 = []
  · rw [hsort, if_pos hnil]
    constructor
    · intro hnone
      cases hnone
    · intro res hres
      obtain rfl := Option.some.inj hres
      have hempty := hend.users
      rw [hnil, List.map_nil] at hempty
      constructor
      · exact nodup_of_new fun before v after heq => (hall before v after heq).1.2.1
      · intro v
        constructor
        · intro hv
          obtain ⟨before, after, heq⟩ := List.append_of_mem hv
          exact (hall before v after heq).1.1
        · intro hv
          by_contra hnot
          have hmissing := mem_notYet.mpr ⟨hv, hnot⟩
          rw [← hempty] at hmissing
          cases hmissing
      · exact fun before v after heq => (hall before v after heq).1.2.2
      · exact fun before v after heq => (hall before v after heq).2
  · rw [hsort, if_neg hnil]
    constructor
    · intro _ hacyclic
      -- the first of what is left has all predecessors in the output
      obtain ⟨u, hu, hsource⟩ := hacyclic.exists_source (mt List.map_eq_nil_iff.mp hnil)
      obtain ⟨n, hn, rfl⟩ := List.mem_map.mp hu
      apply hleft n hn
      rw [hend.incoming n hn, List.countP_eq_zero, ← hend.users]
      exact fun v hv hedge => hsource v hv (of_decide_eq_true hedge)
    · intro res hres
      cases hres

theorem Topological.acyclic (hcalls : Explained HasNodes calls) {order : List V}
    (htopological : Topological calls order) (hnodup : order.Nodup)
    (hcomplete : ∀ v ∈ insertionOrder calls, v ∈ order) : Acyclic (HasEdge calls) := by
  apply acyclic_of_rank fun v => order.idxOf v
  intro u v hedge
  obtain ⟨before, after, rfl⟩ := List.append_of_mem (hcomplete v (hedge.ends hcalls).2)
  have hu := htopological before v after rfl u hedge
  have hv : v ∉ before := by
    rw [List.nodup_middle, List.nodup_cons] at hnodup
    exact fun hmem => hnodup.1 (List.mem_append_left _ hmem)
  rw [List.idxOf_append_of_mem hu, List.idxOf_append_of_notMem hv]
  exact Nat.lt_add_right _ (List.idxOf_lt_length_of_mem hu)

theorem SortedBy.eq_insertionOrder {res : List V} (hres : SortedBy calls (FitsInt calls) res)
    (hzero : ∀ call ∈ calls, call.weight = 0)
    (htopological : Topological calls (insertionOrder calls)) : res = insertionOrder calls := by
  have hweight : ∀ u v, edgeWeight calls u v = 0 := by
    intro u v
    apply List.sum_eq_zero
    intro x hx
    obtain ⟨call, hcall, rfl⟩ := List.mem_map.mp hx
    rw [hzero call hcall, ite_self]
  have hsum : ∀ output v, accumulated calls output v = 0 := by
    intro output v
    induction output using List.reverseRecOn with
    | nil => rfl
    | append_singleton output u ih => rw [accumulated_concat, hweight, ih, ite_self, add_zero]
  -- whatever part of the result is in order, the next one is
  have hagree : ∀ output rest rest', res = output ++ rest →
      insertionOrder calls = output ++ rest' → rest = rest' := by
    intro output rest
    induction rest generalizing output with
    | nil =>
      intro rest' heq horder
      cases rest' with
      | nil => rfl
      | cons w rest' =>
        have hw : w ∈ res := (hres.complete w).mpr (by simp [horder])
        have hnodup := nodup_insertionOrder calls
        rw [horder, List.nodup_middle, List.nodup_cons] at hnodup
        rw [heq, List.append_nil] at hw
        exact absurd (List.mem_append_left _ hw) hnodup.1
    | cons v rest ih =>
      intro rest' heq horder
      obtain ⟨havailable, earlier, later, hsplit, hbefore, -⟩ :=
        hres.picked output v rest heq fun u _ => by rw [hsum]; omega
      cases rest' with
      | nil =>
        have hv := havailable.1
        rw [horder, List.append_nil] at hv
        exact absurd hv havailable.2.1
      | cons w rest' =>
        have hnodup := nodup_insertionOrder calls
        have hw : Available calls output w := by
          refine ⟨by simp [horder], ?_, htopological output w rest' horder⟩
          rw [horder, List.nodup_middle, List.nodup_cons] at hnodup
          exact fun hmem => hnodup.1 (List.mem_append_left _ hmem)
        have hsame : v = w := by
          by_contra hne
          have hearlier : w ∈ earlier := by
            rw [horder] at hsplit
            rcases List.append_eq_append_iff.mp hsplit with ⟨l, rfl, hl⟩ | ⟨l, rfl, hl⟩
            · cases l with
              | nil => exact absurd (List.cons.inj hl).1.symm hne
              | cons x l =>
                obtain ⟨rfl, -⟩ := List.cons.inj hl
                exact List.mem_append_right _ List.mem_cons_self
            · cases l with
              | nil => exact absurd (List.cons.inj hl).1 hne
              | cons x l =>
                obtain ⟨rfl, -⟩ := List.cons.inj hl
                exact absurd (List.mem_append_right _ List.mem_cons_self) havailable.2.1
          have hlt := hbefore w hearlier hw
          rw [hsum, hsum] at hlt
          omega
        subst hsame
        rw [ih (output ++ [v]) rest' (by simp [heq]) (by simp [horder])]
  exact hagree [] res _ rfl rfl

/-- **The topological sort.** It aborts exactly when the partial order has a cycle. Otherwise each
node is output once, after its predecessors, and wherever the priorities of the nodes to choose from
fit, it is one of the highest priority and the earliest added of these. Without priorities, an order
that is topological stays as it is. -/
theorem endTsort_sorts (calls : List (Call V)) (hcalls : Explained HasNodes calls) :
    (endTsort (buildTsort calls) = none ↔ ¬ Acyclic (HasEdge calls)) ∧
      (∀ res, endTsort (buildTsort calls) = some res → SortedBy calls (FitsInt calls) res) ∧
      ((∀ call ∈ calls, call.weight = 0) → Topological calls (insertionOrder calls) →
        endTsort (buildTsort calls) = some (insertionOrder calls)) := by
  obtain ⟨hnone, hsome⟩ := endTsort_spec hcalls
  refine ⟨⟨hnone, ?_⟩, hsome, ?_⟩
  · intro hcycle
    cases hres : endTsort (buildTsort calls) with
    | none => rfl
    | some res =>
      have hsorted := hsome res hres
      have hacyclic := Topological.acyclic hcalls hsorted.ordered hsorted.nodup
        fun v hv => (hsorted.complete v).mpr hv
      exact absurd hacyclic hcycle
  · intro hzero htopological
    cases hres : endTsort (buildTsort calls) with
    | none =>
      have hacyclic := htopological.acyclic hcalls (nodup_insertionOrder calls) fun v hv => hv
      exact absurd hacyclic (hnone hres)
    | some res => rw [(hsome res hres).eq_insertionOrder hzero htopological]

end Results

/-- Node 1 decays: what node 0 gave to node 3 no longer counts. -/
theorem endTsort_sorts_decay :
    SortedBy
      [.addNode 0 false, .addNode 1 true, .addNode 2 false, .addNode 3 false, .addEdge 0 1 1,
        .addEdge 0 3 1]
      (FitsInt
        [.addNode 0 false, .addNode 1 true, .addNode 2 false, .addNode 3 false, .addEdge 0 1 1,
          .addEdge 0 3 1])
      [0, 1, 2, 3] := by
  refine (endTsort_sorts _ ?_).2.1 _ (by decide)
  simp [explained_cons, HasNodes, insertionOrder]

/-- The second edge from node 0 to node 1 takes its priority past the largest `int`, and node 2 is
output before node 1. -/
theorem endTsort_overflows :
    ¬ ∀ calls : List (Call ℕ), Explained HasNodes calls → (∀ call ∈ calls, 0 ≤ call.weight) →
      (endTsort (buildTsort calls) = none ↔ ¬ Acyclic (HasEdge calls)) ∧
        (∀ res, endTsort (buildTsort calls) = some res → SortedBy calls (fun _ => True) res) ∧
        ((∀ call ∈ calls, call.weight = 0) → Topological calls (insertionOrder calls) →
          endTsort (buildTsort calls) = some (insertionOrder calls)) := by
  intro hall
  let calls : List (Call ℕ) :=
    [.addNode 0 false, .addNode 1 false, .addNode 2 false, .addEdge 0 1 2147483647, .addEdge 0 1 1,
      .addEdge 0 2 0]
  obtain ⟨-, hsorted, -⟩ := hall calls
    (by simp [calls, explained_cons, HasNodes, insertionOrder]) (by decide)
  obtain ⟨-, earlier, later, horder, hlt, -⟩ :=
    (hsorted [0, 2, 1] (by decide)).picked [0] 2 [1] rfl trivial
  have hbefore : 1 ∈ earlier := by
    have hlist : [0, 1, 2] = earlier ++ 2 :: later := horder
    cases earlier with
    | nil => cases hlist
    | cons a earlier =>
      obtain ⟨-, htail⟩ := List.cons.inj hlist
      cases earlier with
      | nil => cases htail
      | cons b earlier =>
        obtain ⟨rfl, -⟩ := List.cons.inj htail
        exact List.mem_cons_of_mem _ List.mem_cons_self
  have havailable : Available calls [0] 1 := by
    refine ⟨by decide, by decide, ?_⟩
    rintro u ⟨call, hcall, hjoins⟩
    simp only [calls, List.mem_cons, List.not_mem_nil, or_false] at hcall
    rcases hcall with rfl | rfl | rfl | rfl | rfl | rfl
    all_goals simp_all [Call.Joins]
  have hwrong : accumulated calls [0] 1 < accumulated calls [0] 2 := hlt 1 hbefore havailable
  exact absurd hwrong (by decide)

end Openmoko.Fped
