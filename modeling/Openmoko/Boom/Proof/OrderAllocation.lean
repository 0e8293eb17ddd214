import Openmoko.Boom.Part2order
import Mathlib.Algebra.Ring.Int.Defs
import Mathlib.Data.List.Nodup
import Mathlib.Data.List.Count
import Mathlib.Data.List.Induction

/-!
# The order is sound

The lines of the order are bought within the stock from quantities on offer, and each reference is
served once. What the allocation counts on is that the parts list has every reference and every
part of it once: `want` counts entries, while `comps` and `parts` keep references.
-/

namespace Openmoko.Boom

section Purchase

variable {P : Type} {arith : Arith P}

def Bought (arith : Arith P) (offers : List (Offer P)) (qty : Int) (cost : P) : Prop :=
  ∃ picks : List (Offer P), (∀ offer ∈ picks, offer ∈ offers) ∧
    qty = (picks.map Offer.qty).sum ∧
    cost = picks.foldl (fun cost offer => arith.add cost (arith.times offer.price offer.qty))
      arith.zero

variable {offers : List (Offer P)}

variable {offer : Offer P}

theorem Bought.add {qty : Int} {cost : P}
    (h : Bought arith offers qty cost) (hoffer : offer ∈ offers) :
    Bought arith offers (qty + offer.qty)
      (arith.add cost (arith.times offer.price offer.qty)) := by
  obtain ⟨picks, hpicks, hqty, hcost⟩ := h
  refine ⟨picks ++ [offer], ?_, ?_, ?_⟩
  · intro o ho
    rw [List.mem_append, List.mem_singleton] at ho
    obtain ho | rfl := ho
    · exact hpicks o ho
    · exact hoffer
  · simp [hqty]
  · simp [hcost]

theorem Bought.qty_nonneg {qty : Int} {cost : P} (h : Bought arith offers qty cost) : 0 ≤ qty := by
  obtain ⟨picks, -, rfl, -⟩ := h
  induction picks with
  | nil => exact Int.le_refl 0
  | cons offer picks ih =>
    have hqty := offer.qty_pos
    rw [List.map_cons, List.sum_cons]
    omega

def Purchase.Valid (arith : Arith P) (offers : List (Offer P)) (s : Purchase P) : Prop :=
  Bought arith offers s.order s.price

theorem buy_valid (last : Bool)
    (hoffer : offer ∈ offers) (s : Purchase P) (hs : s.Valid arith offers) :
    (buy arith last offer s).Valid arith offers := by
  induction s using buy.induct arith last offer with
  | case1 s hleft ih =>
    rw [buy, if_pos hleft]
    exact ih (hs.add hoffer)
  | case2 s hleft =>
    rw [buy, if_neg hleft]
    exact hs

theorem buyAll_valid (table : List (Offer P))
    (htable : ∀ offer ∈ table, offer ∈ offers) (s : Purchase P) (hs : s.Valid arith offers) :
    (buyAll arith table s).Valid arith offers := by
  induction table, s using buyAll.induct arith with
  | case1 s => exact hs
  | case2 offer s => exact buy_valid true (htable offer List.mem_cons_self) s hs
  | case3 offer rest s hrest ih =>
    rw [buyAll]
    · apply ih fun o ho => htable o (List.mem_cons_of_mem offer ho)
      exact buy_valid false (htable offer List.mem_cons_self) s hs
    · exact hrest

variable {table : List (Offer P)}

theorem candidates_valid (n : Int) (htable : ∀ offer ∈ table, offer ∈ offers) :
    ∀ s ∈ candidates arith n table, s.Valid arith offers := by
  intro s hs
  obtain ⟨i, -, rfl⟩ := List.mem_map.mp hs
  apply buyAll_valid
  · intro offer hoffer
    exact htable offer (List.mem_of_mem_drop (List.mem_reverse.mp hoffer))
  · exact ⟨[], by simp, rfl, rfl⟩

theorem mem_addOffer {other : Offer P}
    (h : other ∈ addOffer table offer) : other ∈ table ∨ other = offer := by
  rw [addOffer] at h
  split at h
  · obtain ⟨old, hold, rfl⟩ := List.mem_map.mp h
    split
    · exact Or.inr rfl
    · exact Or.inl hold
  · simpa using h

def Affordable (arith : Arith P) (offers : List (Offer P)) (max : Int)
    (best : Option (Purchase P)) : Prop :=
  ∀ s ∈ best, s.Valid arith offers ∧ s.order ≤ max

variable {best : Option (Purchase P)}

theorem choose_affordable {max : Int}
    (hbest : Affordable arith offers max best) {s : Purchase P} (hs : s.Valid arith offers) :
    Affordable arith offers max (choose arith max best s) := by
  have hsome : ¬max < s.order → Affordable arith offers max (some s) := by
    intro hmax t ht
    obtain rfl := Option.mem_some_iff.mp ht
    exact ⟨hs, Int.not_lt.mp hmax⟩
  rw [choose.eq_def]
  split
  · exact hbest
  · next hmax =>
      split
      · exact hsome hmax
      · split
        · exact hsome hmax
        · exact hbest

theorem foldl_choose_affordable {max : Int} (found : List (Purchase P))
    (hfound : ∀ s ∈ found, s.Valid arith offers)
    (hbest : Affordable arith offers max best) :
    Affordable arith offers max (found.foldl (choose arith max) best) := by
  induction found generalizing best with
  | nil => exact hbest
  | cons s found ih =>
    apply ih fun t ht => hfound t (List.mem_cons_of_mem s ht)
    exact choose_affordable hbest (hfound s List.mem_cons_self)

theorem searchOffers_affordable (n max : Int) (rest : List (Offer P))
    (hrest : ∀ offer ∈ rest, offer ∈ offers)
    (htable : ∀ offer ∈ table, offer ∈ offers)
    (hbest : Affordable arith offers max best) :
    Affordable arith offers max (searchOffers arith n max rest table best) := by
  induction rest generalizing table best with
  | nil => exact hbest
  | cons offer rest ih =>
    have hoffer := hrest offer List.mem_cons_self
    have hnext : ∀ other ∈ addOffer table offer, other ∈ offers := by
      intro other hother
      obtain hold | rfl := mem_addOffer hother
      · exact htable other hold
      · exact hoffer
    apply ih (fun o ho => hrest o (List.mem_cons_of_mem offer ho)) hnext
    exact foldl_choose_affordable _ (candidates_valid n hnext) hbest

end Purchase

/-! ### What a parts list counts -/

def unassigned (p : Parts) (printed : List Ref) (id : Id) : Nat :=
  p.refs.countP fun ref => ref ∉ printed ∧ id ∈ ids (p.parts ref)

structure Distinct (lines : List ParLine) : Prop where
  once : lines.Pairwise fun earlier later => earlier.ref = later.ref → earlier.fields = []
  nodup : ∀ line ∈ lines, (ids line.fields).Nodup

instance (lines : List ParLine) : Decidable (Distinct lines) :=
  decidable_of_iff
    (lines.Pairwise (fun earlier later => earlier.ref = later.ref → earlier.fields = []) ∧
      ∀ line ∈ lines, (ids line.fields).Nodup)
    ⟨fun h => ⟨h.1, h.2⟩, fun h => ⟨h.once, h.nodup⟩⟩

theorem ids_eq_nil_iff {fields : List (List Byte)} : ids fields = [] ↔ fields = [] := by
  match fields with
  | [] => simp [ids]
  | [_] => simp [ids]
  | _ :: _ :: _ => simp [ids]

theorem distinct_concat (lines : List ParLine) (line : ParLine) :
    Distinct (lines ++ [line]) ↔ Distinct lines ∧ (ids line.fields).Nodup ∧
      ∀ earlier ∈ lines, earlier.ref = line.ref → earlier.fields = [] := by
  constructor
  · intro h
    have hpair := List.pairwise_append.mp h.once
    refine ⟨⟨hpair.1, fun l hl => h.nodup l (List.mem_append_left _ hl)⟩, ?_, ?_⟩
    · exact h.nodup line (by simp)
    · intro earlier hearlier
      exact hpair.2.2 earlier hearlier line (by simp)
  · rintro ⟨hlines, hnodup, honce⟩
    constructor
    · rw [List.pairwise_append]
      refine ⟨hlines.once, List.pairwise_singleton _ _, fun earlier hearlier later hlater => ?_⟩
      obtain rfl := List.mem_singleton.mp hlater
      exact honce earlier hearlier
    · intro l hl
      rw [List.mem_append, List.mem_singleton] at hl
      obtain hl | rfl := hl
      · exact hlines.nodup l hl
      · exact hnodup

theorem parse_concat (lines : List ParLine) (line : ParLine) :
    parse (lines ++ [line]) = par (parse lines) line := by
  rw [parse, List.foldl_append]
  rfl

variable {keys : List Ref} {lines : List ParLine}

section ListFor

variable (ref : Ref) (listed : List Id) (p : Parts)

theorem foldl_listFor_refs : (listed.foldl (listFor ref) p).refs = p.refs := by
  induction listed generalizing p with
  | nil => rfl
  | cons id listed ih => exact ih _

theorem foldl_listFor_parts : (listed.foldl (listFor ref) p).parts = p.parts := by
  induction listed generalizing p with
  | nil => rfl
  | cons id listed ih => exact ih _

theorem foldl_listFor_want (id : Id) :
    (listed.foldl (listFor ref) p).want id = p.want id + listed.count id := by
  induction listed generalizing p with
  | nil => simp
  | cons other listed ih =>
    rw [List.foldl_cons, ih, listFor, List.count_cons]
    by_cases heq : other = id
    · subst heq
      simp
      omega
    · simp [Function.update_of_ne (Ne.symm heq), heq]

theorem mem_addKey {key other : Ref} : other ∈ addKey keys key ↔ other ∈ keys ∨ other = key := by
  rw [addKey]
  split
  · next hmem =>
      constructor
      · exact Or.inl
      · rintro (hother | rfl)
        · exact hother
        · exact hmem
  · simp

theorem nodup_addKey (hkeys : keys.Nodup) (key : Ref) : (addKey keys key).Nodup := by
  rw [addKey]
  split
  · exact hkeys
  · next hnot => exact List.nodup_append_comm.mp (List.nodup_cons.mpr ⟨hnot, hkeys⟩)

theorem mem_foldl_listFor_comps (id : Id) (other : Ref) :
    other ∈ (listed.foldl (listFor ref) p).comps id ↔
      other ∈ p.comps id ∨ (other = ref ∧ id ∈ listed) := by
  induction listed generalizing p with
  | nil => simp
  | cons first listed ih =>
    rw [List.foldl_cons, ih, listFor, List.mem_cons]
    by_cases heq : id = first
    · subst heq
      simp only [Function.update_self, mem_addKey]
      tauto
    · simp [heq]

theorem nodup_foldl_listFor_comps (hcomps : ∀ id, (p.comps id).Nodup) (id : Id) :
    ((listed.foldl (listFor ref) p).comps id).Nodup := by
  induction listed generalizing p with
  | nil => exact hcomps id
  | cons first listed ih =>
    apply ih
    intro other
    by_cases heq : other = first
    · subst heq
      simpa [listFor] using nodup_addKey (hcomps other) ref
    · simpa [listFor, Function.update_of_ne heq] using hcomps other

end ListFor

section Par

variable (p : Parts) (line : ParLine)

theorem par_refs : (par p line).refs = addKey p.refs line.ref := foldl_listFor_refs _ _ _

theorem par_parts : (par p line).parts = Function.update p.parts line.ref line.fields :=
  foldl_listFor_parts _ _ _

theorem par_want (id : Id) : (par p line).want id = p.want id + (ids line.fields).count id :=
  foldl_listFor_want _ _ _ id

theorem mem_par_comps (id : Id) (ref : Ref) :
    ref ∈ (par p line).comps id ↔
      ref ∈ p.comps id ∨ (ref = line.ref ∧ id ∈ ids line.fields) :=
  mem_foldl_listFor_comps _ _ _ id ref

end Par

structure Parts.Consistent (p : Parts) : Prop where
  refs_nodup : p.refs.Nodup
  refs_of_parts : ∀ ref, ref ∉ p.refs → p.parts ref = []
  comps_nodup : ∀ id, (p.comps id).Nodup

theorem consistent_par {p : Parts} (hp : p.Consistent) (line : ParLine) :
    (par p line).Consistent := by
  constructor
  · rw [par_refs]
    exact nodup_addKey hp.refs_nodup line.ref
  · intro ref href
    rw [par_refs, mem_addKey, not_or] at href
    rw [par_parts, Function.update_of_ne href.2]
    exact hp.refs_of_parts ref href.1
  · exact nodup_foldl_listFor_comps _ _ _ hp.comps_nodup

theorem consistent_parse (lines : List ParLine) : (parse lines).Consistent := by
  induction lines using List.reverseRecOn with
  | nil =>
    constructor
    · exact List.nodup_nil
    · exact fun _ _ => rfl
    · exact fun _ => List.nodup_nil
  | append_singleton lines line ih =>
    rw [parse_concat]
    exact consistent_par ih line

theorem countP_update {refs : List Ref} {parts : Ref → List (List Byte)} {ref : Ref}
    (href : ref ∉ refs) (fields : List (List Byte)) (id : Id) :
    refs.countP (fun r => id ∈ ids (Function.update parts ref fields r)) =
      refs.countP fun r => id ∈ ids (parts r) := by
  apply List.countP_congr
  intro r hr
  have hne : r ≠ ref := fun heq => href (heq ▸ hr)
  rw [Function.update_of_ne hne]

theorem unassigned_nil (p : Parts) (id : Id) :
    unassigned p [] id = p.refs.countP fun ref => id ∈ ids (p.parts ref) := by
  simp [unassigned]

theorem unassigned_par {p : Parts} (hp : p.Consistent) (line : ParLine) (id : Id) :
    unassigned (par p line) [] id + (if id ∈ ids (p.parts line.ref) then 1 else 0) =
      unassigned p [] id + if id ∈ ids line.fields then 1 else 0 := by
  rw [unassigned_nil, unassigned_nil, par_refs, par_parts, addKey]
  by_cases href : line.ref ∈ p.refs
  · have hperm := List.perm_cons_erase href
    have hnot : line.ref ∉ p.refs.erase line.ref := hp.refs_nodup.not_mem_erase
    rw [if_pos href, hperm.countP_eq, hperm.countP_eq, List.countP_cons, List.countP_cons,
      countP_update hnot]
    simp
    omega
  · have hnone : id ∉ ids (p.parts line.ref) := by
      rw [hp.refs_of_parts line.ref href]
      exact List.not_mem_nil
    rw [if_neg href, if_neg hnone, List.countP_append, countP_update href]
    simp [List.countP_cons]

theorem parts_eq_nil_iff (hlines : Distinct lines) (ref : Ref) :
    (parse lines).parts ref = [] ↔ ∀ line ∈ lines, line.ref = ref → line.fields = [] := by
  induction lines using List.reverseRecOn with
  | nil => simp [parse, noParts]
  | append_singleton lines line ih =>
    obtain ⟨hbefore, -, honce⟩ := (distinct_concat lines line).mp hlines
    rw [parse_concat, par_parts]
    by_cases heq : line.ref = ref
    · subst heq
      rw [Function.update_self]
      constructor
      · intro hnil other hother hsame
        rw [List.mem_append, List.mem_singleton] at hother
        obtain hother | rfl := hother
        · exact honce other hother hsame
        · exact hnil
      · intro hall
        exact hall line (by simp) rfl
    · rw [Function.update_of_ne (Ne.symm heq), ih hbefore]
      constructor
      · intro hall other hother hsame
        rw [List.mem_append, List.mem_singleton] at hother
        obtain hother | rfl := hother
        · exact hall other hother hsame
        · exact absurd hsame heq
      · intro hall other hother
        exact hall other (List.mem_append_left _ hother)

theorem unassigned_le_want (lines : List ParLine) (id : Id) :
    (unassigned (parse lines) [] id : Int) ≤ (parse lines).want id := by
  induction lines using List.reverseRecOn with
  | nil => simp [unassigned, parse, noParts]
  | append_singleton lines line ih =>
    have hcount := unassigned_par (consistent_parse lines) line id
    have hmem : (if id ∈ ids line.fields then 1 else 0) ≤ (ids line.fields).count id := by
      split
      · next hid => exact List.count_pos_iff.mpr hid
      · exact Nat.zero_le _
    rw [parse_concat, par_want]
    omega

/-- **The wants agree with the references** exactly for a parts list without repetitions. -/
theorem want_eq_unassigned_iff (lines : List ParLine) :
    (∀ id, (parse lines).want id = unassigned (parse lines) [] id) ↔ Distinct lines := by
  induction lines using List.reverseRecOn with
  | nil =>
    constructor
    · intro _
      exact ⟨List.Pairwise.nil, fun _ h => absurd h List.not_mem_nil⟩
    · intro _ id
      rfl
  | append_singleton lines line ih =>
    have hstep : ∀ id, (parse (lines ++ [line])).want id =
        unassigned (parse (lines ++ [line])) [] id ↔
          (parse lines).want id = unassigned (parse lines) [] id ∧
            (ids line.fields).count id ≤ 1 ∧ id ∉ ids ((parse lines).parts line.ref) := by
      intro id
      have hcount := unassigned_par (consistent_parse lines) line id
      have hle := unassigned_le_want lines id
      have hpos : id ∈ ids line.fields ↔ 0 < (ids line.fields).count id :=
        List.count_pos_iff.symm
      rw [parse_concat, par_want]
      by_cases hid : id ∈ ids line.fields <;>
        by_cases hold : id ∈ ids ((parse lines).parts line.ref) <;>
        simp only [hid, hold, if_true, if_false, true_iff, false_iff, not_true_eq_false,
          not_false_eq_true, and_true, and_false, iff_false] at hcount hpos ⊢ <;>
        omega
    rw [distinct_concat, ← ih, forall_congr' hstep]
    constructor
    · intro hall
      have hlines := ih.mp fun id => (hall id).1
      refine ⟨fun id => (hall id).1, List.nodup_iff_count_le_one.mpr fun id => (hall id).2.1, ?_⟩
      rw [← parts_eq_nil_iff hlines, ← ids_eq_nil_iff]
      exact List.eq_nil_iff_forall_not_mem.mpr fun id => (hall id).2.2
    · rintro ⟨hlines, hnodup, honce⟩ id
      refine ⟨hlines id, List.nodup_iff_count_le_one.mp hnodup id, ?_⟩
      rw [(parts_eq_nil_iff (ih.mp hlines) line.ref).mpr honce]
      exact List.not_mem_nil

theorem mem_parse_comps (hlines : Distinct lines) (id : Id) (ref : Ref) :
    ref ∈ (parse lines).comps id ↔
      ref ∈ (parse lines).refs ∧ id ∈ ids ((parse lines).parts ref) := by
  induction lines using List.reverseRecOn with
  | nil => simp [parse, noParts]
  | append_singleton lines line ih =>
    obtain ⟨hbefore, -, honce⟩ := (distinct_concat lines line).mp hlines
    rw [parse_concat, mem_par_comps, ih hbefore, par_refs, par_parts, mem_addKey]
    by_cases heq : ref = line.ref
    · subst heq
      have hnone : id ∉ ids ((parse lines).parts line.ref) := by
        rw [(parts_eq_nil_iff hbefore line.ref).mpr honce]
        exact List.not_mem_nil
      simp [hnone]
    · simp [heq]

/-! ### What the allocation keeps -/

section Withdraw

variable (ref : Ref) (listed : List Id) (s : Allocation)

theorem foldl_withdraw_printed : (listed.foldl (withdraw ref) s).printed = s.printed := by
  induction listed generalizing s with
  | nil => rfl
  | cons id listed ih => exact ih _

theorem foldl_withdraw_moments : (listed.foldl (withdraw ref) s).moments = s.moments := by
  induction listed generalizing s with
  | nil => rfl
  | cons id listed ih => exact ih _

theorem foldl_withdraw_want (id : Id) :
    (listed.foldl (withdraw ref) s).want id = s.want id - listed.count id := by
  induction listed generalizing s with
  | nil => simp
  | cons other listed ih =>
    rw [List.foldl_cons, ih, withdraw, List.count_cons]
    by_cases heq : other = id
    · subst heq
      simp
      omega
    · simp [Function.update_of_ne (Ne.symm heq), heq]

theorem foldl_withdraw_comps (hnodup : listed.Nodup) (id : Id) :
    (listed.foldl (withdraw ref) s).comps id =
      if id ∈ listed then (s.comps id).erase ref else s.comps id := by
  induction listed generalizing s with
  | nil => rfl
  | cons other listed ih =>
    rw [List.nodup_cons] at hnodup
    rw [List.foldl_cons, ih _ hnodup.2, withdraw]
    by_cases heq : id = other
    · subst heq
      simp [hnodup.1]
    · simp [heq]

end Withdraw

structure Allocation.Agrees (p : Parts) (s : Allocation) : Prop where
  printed_nodup : s.printed.Nodup
  mem_comps : ∀ id ref,
    ref ∈ s.comps id ↔ ref ∈ p.refs ∧ ref ∉ s.printed ∧ id ∈ ids (p.parts ref)
  comps_nodup : ∀ id, (s.comps id).Nodup
  want_eq : ∀ id, s.want id = (s.comps id).length

def Allocation.Counted (p : Parts) (s : Allocation) : Prop :=
  ∀ moment ∈ s.moments, ∀ id, moment.2 id = unassigned p moment.1 id

theorem Allocation.Agrees.length_comps {p : Parts} (hp : p.Consistent) {s : Allocation}
    (hs : s.Agrees p) (id : Id) : (s.comps id).length = unassigned p s.printed id := by
  have hperm : (s.comps id).Perm
      (p.refs.filter fun ref => ref ∉ s.printed ∧ id ∈ ids (p.parts ref)) := by
    rw [List.perm_ext_iff_of_nodup (hs.comps_nodup id) (hp.refs_nodup.filter _)]
    intro ref
    rw [hs.mem_comps id ref, List.mem_filter, decide_eq_true_iff]
  rw [hperm.length_eq, unassigned, List.countP_eq_length_filter]

theorem assign_printed (parts : Ref → List (List Byte)) (ref : Ref) (s : Allocation) :
    (assign parts ref s).printed = s.printed ++ [ref] := by
  rw [assign, print, foldl_withdraw_printed]

theorem agrees_assign {p : Parts} {s : Allocation} (hs : s.Agrees p) {ref : Ref}
    (href : ref ∈ p.refs) (hnew : ref ∉ s.printed) (hnodup : (ids (p.parts ref)).Nodup) :
    (assign p.parts ref s).Agrees p := by
  have hcomps := foldl_withdraw_comps ref (ids (p.parts ref)) s hnodup
  constructor
  · rw [assign_printed]
    exact List.nodup_append_comm.mp (List.nodup_cons.mpr ⟨hnew, hs.printed_nodup⟩)
  · intro id other
    rw [assign_printed, assign, print, hcomps, List.mem_append, List.mem_singleton, not_or]
    have hold := hs.mem_comps id other
    split
    · rw [(hs.comps_nodup id).mem_erase_iff]
      tauto
    · next hnot =>
        have hne : id ∈ ids (p.parts other) → other ≠ ref := fun hid heq => hnot (heq ▸ hid)
        tauto
  · intro id
    rw [assign, print, hcomps]
    split
    · exact (hs.comps_nodup id).erase ref
    · exact hs.comps_nodup id
  · intro id
    rw [assign, print, foldl_withdraw_want, hcomps, hs.want_eq id]
    split
    · next hid =>
        have hmem : ref ∈ s.comps id := (hs.mem_comps id ref).mpr ⟨href, hnew, hid⟩
        have hpos := List.length_pos_of_mem hmem
        rw [List.count_eq_one_of_mem hnodup hid, List.length_erase_of_mem hmem]
        omega
    · next hid =>
        rw [List.count_eq_zero_of_not_mem hid]
        omega

theorem counted_assign {p : Parts} (hp : p.Consistent) {s : Allocation} (hcounted : s.Counted p)
    {ref : Ref} (hs : (assign p.parts ref s).Agrees p) : (assign p.parts ref s).Counted p := by
  have hmoments : (assign p.parts ref s).moments =
      s.moments ++ [((assign p.parts ref s).printed, (assign p.parts ref s).want)] := by
    rw [assign_printed, assign, print, foldl_withdraw_moments, foldl_withdraw_printed]
  intro moment hmoment id
  rw [hmoments, List.mem_append, List.mem_singleton] at hmoment
  obtain hmoment | rfl := hmoment
  · exact hcounted moment hmoment id
  · exact (hs.want_eq id).trans (congrArg Nat.cast (hs.length_comps hp id))

theorem mem_of_firstRef {ref : Ref} (h : firstRef keys = some ref) : ref ∈ keys := by
  have hmem := List.mem_of_mem_head? h
  exact (List.mergeSort_perm keys _).mem_iff.mp hmem

structure Extends (p : Parts) (s s' : Allocation) (refs : List Ref) : Prop where
  agrees : s'.Agrees p
  counted : s'.Counted p
  printed_eq : s'.printed = s.printed ++ refs

section Fill

variable {p : Parts} (hp : p.Consistent) (hparts : ∀ ref, (ids (p.parts ref)).Nodup) {mult : Nat}
  (hmult : 0 < mult)
include hp hparts

theorem fill_extends (id : Id) (qty : Int) {s : Allocation} (hs : s.Agrees p)
    (hcounted : s.Counted p) :
    Extends p s (fill p.parts mult hmult id qty s).2 (fill p.parts mult hmult id qty s).1 ∧
      ∀ ref ∈ (fill p.parts mult hmult id qty s).1, id ∈ ids (p.parts ref) := by
  induction qty, s using fill.induct p.parts mult hmult id with
  | case1 qty s hnone =>
    rw [fill, hnone]
    exact ⟨⟨hs, hcounted, (List.append_nil _).symm⟩, fun _ h => absurd h List.not_mem_nil⟩
  | case2 qty s ref href hqty =>
    rw [fill, href]
    simp only [hqty, if_true]
    exact ⟨⟨hs, hcounted, (List.append_nil _).symm⟩, fun _ h => absurd h List.not_mem_nil⟩
  | case3 qty s ref href hqty ih =>
    obtain ⟨hmem, hnew, hid⟩ := (hs.mem_comps id ref).mp (mem_of_firstRef href)
    have hnext := agrees_assign hs hmem hnew (hparts ref)
    obtain ⟨hextends, hlisted⟩ := ih hnext (counted_assign hp hcounted hnext)
    rw [fill, href]
    simp only [hqty, if_false]
    refine ⟨⟨hextends.agrees, hextends.counted, ?_⟩, ?_⟩
    · rw [hextends.printed_eq, assign_printed, List.append_assoc]
      rfl
    · intro other hother
      obtain rfl | hother := List.mem_cons.mp hother
      · exact hid
      · exact hlisted other hother

end Fill

theorem fill_length (parts : Ref → List (List Byte)) {mult : Nat} (hmult : 0 < mult) (id : Id)
    (qty : Int) (s : Allocation) (hqty : 0 ≤ qty) :
    (mult * (fill parts mult hmult id qty s).1.length : Int) ≤ qty := by
  induction qty, s using fill.induct parts mult hmult id with
  | case1 qty s hnone =>
    rw [fill, hnone]
    simpa using hqty
  | case2 qty s ref href hlt =>
    rw [fill, href]
    simpa [hlt] using hqty
  | case3 qty s ref href hge ih =>
    have hrest := ih (by omega)
    rw [fill, href]
    simp only [hge, if_false, List.length_cons]
    rw [Int.natCast_succ, Int.mul_add, Int.mul_one]
    omega

section Lines

variable {P : Type} (arith : Arith P) (mult : Nat) (inv : Id → Option (Inventory P))

structure Line.Sound (p : Parts) (line : Line P) : Prop where
  listed : ∀ ref ∈ line.refs, line.id ∈ ids (p.parts ref)
  enough : (mult * line.refs.length : Int) ≤ line.qty
  in_stock : line.qty ≤ stockOf inv line.id
  bought : ∃ inventory, inv line.id = some inventory ∧
    Bought arith inventory.offers line.qty line.cost

variable {p : Parts} (hp : p.Consistent) (hparts : ∀ ref, (ids (p.parts ref)).Nodup)
  (hmult : 0 < mult)
include hp hparts

theorem orderLine_sound (id : Id) {s : Allocation} (hs : s.Agrees p) (hcounted : s.Counted p) :
    Extends p s (orderLine arith mult inv p.parts hmult id s).2
        ((orderLine arith mult inv p.parts hmult id s).1.flatMap Line.refs) ∧
      ∀ line ∈ (orderLine arith mult inv p.parts hmult id s).1,
        line.Sound arith mult inv p := by
  have hskip : Extends p s s [] := ⟨hs, hcounted, (List.append_nil _).symm⟩
  rw [orderLine]
  split
  · exact ⟨hskip, fun _ h => absurd h List.not_mem_nil⟩
  · split
    · exact ⟨hskip, fun _ h => absurd h List.not_mem_nil⟩
    · next inventory hinv =>
        split
        · exact ⟨hskip, fun _ h => absurd h List.not_mem_nil⟩
        · next best hbest =>
            have hnone : Affordable arith inventory.offers inventory.stock none := by
              intro s hs
              cases hs
            obtain ⟨hvalid, hstock⟩ := searchOffers_affordable _ _ inventory.offers
              (fun _ h => h) (fun _ h => absurd h List.not_mem_nil) hnone best hbest
            obtain ⟨hextends, hlisted⟩ := fill_extends hp hparts hmult id best.order hs hcounted
            refine ⟨by simpa using hextends, fun line hline => ?_⟩
            obtain rfl := List.mem_singleton.mp hline
            constructor
            · exact hlisted
            · exact fill_length p.parts hmult id best.order s hvalid.qty_nonneg
            · rw [stockOf, hinv]
              exact hstock
            · exact ⟨inventory, hinv, hvalid⟩

theorem orderLines_sound (keys : List Id) {s : Allocation} (hs : s.Agrees p)
    (hcounted : s.Counted p) :
    Extends p s (orderLines arith mult inv p.parts hmult keys s).2
        ((orderLines arith mult inv p.parts hmult keys s).1.flatMap Line.refs) ∧
      ∀ line ∈ (orderLines arith mult inv p.parts hmult keys s).1,
        line.Sound arith mult inv p := by
  induction keys generalizing s with
  | nil =>
    exact ⟨⟨hs, hcounted, (List.append_nil _).symm⟩, fun _ h => absurd h List.not_mem_nil⟩
  | cons id keys ih =>
    obtain ⟨hfirst, hline⟩ := orderLine_sound arith mult inv hp hparts hmult id hs hcounted
    obtain ⟨hrest, hlines⟩ := ih hfirst.agrees hfirst.counted
    refine ⟨⟨hrest.agrees, hrest.counted, ?_⟩, fun line h => ?_⟩
    · rw [orderLines, List.flatMap_append, ← List.append_assoc, ← hfirst.printed_eq]
      exact hrest.printed_eq
    · obtain h | h := List.mem_append.mp h
      · exact hline line h
      · exact hlines line h

end Lines

/-! ### The log of the wants starts with the parts list -/

section Moments

variable (parts : Ref → List (List Byte)) (mult : Nat) (hmult : 0 < mult)

theorem fill_moments (id : Id) (qty : Int) (s : Allocation) :
    s.moments <+: (fill parts mult hmult id qty s).2.moments := by
  induction qty, s using fill.induct parts mult hmult id with
  | case1 qty s hnone =>
    have hsame : (fill parts mult hmult id qty s).2 = s := by
      rw [fill, hnone]
    exact ⟨[], by rw [List.append_nil, hsame]⟩
  | case2 qty s ref href hlt =>
    have hsame : (fill parts mult hmult id qty s).2 = s := by
      rw [fill, href]
      simp only [hlt, if_true]
    exact ⟨[], by rw [List.append_nil, hsame]⟩
  | case3 qty s ref href hge ih =>
    rw [fill, href]
    simp only [hge, if_false]
    apply List.IsPrefix.trans _ ih
    rw [assign, print, foldl_withdraw_moments]
    exact List.prefix_append _ _

theorem orderLines_moments {P : Type} (arith : Arith P) (inv : Id → Option (Inventory P))
    (keys : List Id) (s : Allocation) :
    s.moments <+: (orderLines arith mult inv parts hmult keys s).2.moments := by
  induction keys generalizing s with
  | nil => exact List.prefix_rfl
  | cons id keys ih =>
    apply List.IsPrefix.trans _ (ih _)
    rw [orderLine]
    split
    · exact List.prefix_rfl
    · split
      · exact List.prefix_rfl
      · split
        · exact List.prefix_rfl
        · exact fill_moments parts mult hmult id _ s

end Moments

section Script

variable {P : Type} (arith : Arith P) (mult : Nat) (inv : Id → Option (Inventory P))

theorem initial_moment (lines : List ParLine) (keys : List Id) :
    ([], (parse lines).want) ∈ (part2order arith mult inv lines keys).2.moments := by
  rw [part2order]
  split
  · next hmult =>
      apply (orderLines_moments (parse lines).parts mult hmult arith inv _ _).subset
      exact List.mem_singleton_self _
  · exact List.mem_singleton_self _

theorem agrees_start (hlines : Distinct lines) : (parse lines).start.Agrees (parse lines) := by
  have hp := consistent_parse lines
  have hmem := mem_parse_comps hlines
  constructor
  · exact List.nodup_nil
  · intro id ref
    simpa [Parts.start] using hmem id ref
  · exact hp.comps_nodup
  · intro id
    have hperm : ((parse lines).comps id).Perm
        ((parse lines).refs.filter fun ref => id ∈ ids ((parse lines).parts ref)) := by
      rw [List.perm_ext_iff_of_nodup (hp.comps_nodup id) (hp.refs_nodup.filter _)]
      intro ref
      rw [hmem id ref, List.mem_filter, decide_eq_true_iff]
    calc
      (parse lines).start.want id = unassigned (parse lines) [] id :=
        (want_eq_unassigned_iff lines).mpr hlines id
      _ = ((parse lines).start.comps id).length := by
        rw [unassigned_nil, List.countP_eq_length_filter]
        exact congrArg Nat.cast hperm.length_eq.symm

/-- What the order promises: a reference is on one line only, the lines are sound, and whenever the
wants were looked at they counted the references that were left. -/
structure OrderSound (lines : List ParLine) (out : List (Line P) × Allocation) : Prop where
  once : (out.1.flatMap Line.refs).Nodup
  sound : ∀ line ∈ out.1, line.Sound arith mult inv (parse lines)
  wants : ∀ moment ∈ out.2.moments, ∀ id, moment.2 id = unassigned (parse lines) moment.1 id

theorem distinct_parts (hlines : Distinct lines) (ref : Ref) :
    (ids ((parse lines).parts ref)).Nodup := by
  induction lines using List.reverseRecOn with
  | nil => exact List.nodup_nil
  | append_singleton lines line ih =>
    obtain ⟨hbefore, hnodup, -⟩ := (distinct_concat lines line).mp hlines
    rw [parse_concat, par_parts]
    by_cases heq : ref = line.ref
    · subst heq
      rwa [Function.update_self]
    · rw [Function.update_of_ne heq]
      exact ih hbefore

/-- **The order is sound exactly for a parts list without repetitions**, whatever the inventory, the
prices, the multiplier and the order of the hash. -/
theorem orderSound_iff_distinct (lines : List ParLine) (keys : List Id) :
    OrderSound arith mult inv lines (part2order arith mult inv lines keys) ↔ Distinct lines := by
  constructor
  · intro h
    rw [← want_eq_unassigned_iff]
    exact h.wants _ (initial_moment arith mult inv lines keys)
  · intro hlines
    have hcounted : (parse lines).start.Counted (parse lines) := by
      intro moment hmoment
      obtain rfl := List.mem_singleton.mp hmoment
      exact (want_eq_unassigned_iff lines).mpr hlines
    rw [part2order]
    split
    · next hmult =>
        obtain ⟨hrun, hsound⟩ := orderLines_sound arith mult inv (consistent_parse lines)
          (distinct_parts hlines) hmult _ (agrees_start hlines) hcounted
        refine ⟨?_, hsound, hrun.counted⟩
        have hprinted := hrun.printed_eq
        rw [Parts.start, List.nil_append] at hprinted
        exact hprinted ▸ hrun.agrees.printed_nodup
    · exact ⟨List.nodup_nil, fun _ h => absurd h List.not_mem_nil, hcounted⟩

end Script

def wholePrices : Arith Int where
  zero := 0
  add := (· + ·)
  times := (· * ·)
  lt a b := a < b
  cmp a b := a - b
  truthy a := a != 0

def twoBoards : List ParLine :=
  [⟨ascii "R1", [ascii "FIC", ascii "1"]⟩, ⟨ascii "R1", [ascii "FIC", ascii "2"]⟩]

theorem not_orderSound_twoBoards :
    let inv : Id → Option (Inventory Int) := fun _ => some ⟨10, ascii "USD", [⟨1, 5, by decide⟩]⟩
    ¬OrderSound wholePrices 1 inv twoBoards
      (part2order wholePrices 1 inv twoBoards [ascii "FIC 1", ascii "FIC 2"]) := by
  intro inv h
  have hwant := h.wants _ (initial_moment wholePrices 1 inv twoBoards _) (ascii "FIC 1")
  exact absurd hwant (by decide)

end Openmoko.Boom
