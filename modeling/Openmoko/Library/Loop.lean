import Mathlib.Data.List.Basic

/-!
# Loops that may fail

Rules for `foldlM`. Of a loop that may fail to finish: what every turn preserves holds at the end, a
loop of turns that all finish finishes, and turns that are told more tell no less. A function that is
given a bound for its loops and calls ends with a result when every bound that is large enough leads
to it.

A walk over a linked list may meet a list that changes under it: a turn may take an element off the
list, and the walk ends where that is the element visited.

A loop that may stop with an error checks something at every turn and then updates the state. Where
the checks are about the items alone, the loop ends well exactly if every item passes, and then it
was a loop of updates. Such a loop leaves alone what its updates leave alone.
-/

namespace Openmoko

section Finishing

variable {σ α : Type}

theorem foldlM_preserves_of_mem {f : σ → α → Option σ} (Inv : σ → Prop) {l : List α}
    (hstep : ∀ s, ∀ a ∈ l, ∀ s', Inv s → f s a = some s' → Inv s') {s s' : σ} (hs : Inv s)
    (hloop : l.foldlM f s = some s') : Inv s' := by
  induction l generalizing s with
  | nil =>
    cases hloop
    exact hs
  | cons a l ih =>
    rw [List.foldlM_cons] at hloop
    obtain ⟨t, hturn, hrest⟩ := Option.bind_eq_some_iff.mp hloop
    have ht : Inv t := hstep s a List.mem_cons_self t hs hturn
    exact ih (fun s b hb => hstep s b (List.mem_cons_of_mem a hb)) ht hrest

theorem foldlM_preserves {f : σ → α → Option σ} (Inv : σ → Prop)
    (hstep : ∀ s a s', Inv s → f s a = some s' → Inv s') {l : List α} {s s' : σ} (hs : Inv s)
    (hloop : l.foldlM f s = some s') : Inv s' :=
  foldlM_preserves_of_mem Inv (fun s a _ => hstep s a) hs hloop

theorem foldlM_finishes {f : σ → α → Option σ} (Inv : σ → Prop) (l : List α)
    (hstep : ∀ s, ∀ a ∈ l, Inv s → ∃ s', f s a = some s' ∧ Inv s') {s : σ} (hs : Inv s) :
    ∃ s', l.foldlM f s = some s' ∧ Inv s' := by
  induction l generalizing s with
  | nil => exact ⟨s, rfl, hs⟩
  | cons a l ih =>
    obtain ⟨t, hturn, ht⟩ := hstep s a List.mem_cons_self hs
    obtain ⟨s', hrest, hs'⟩ := ih (fun s a ha => hstep s a (List.mem_cons_of_mem _ ha)) ht
    refine ⟨s', ?_, hs'⟩
    rw [List.foldlM_cons, hturn]
    exact hrest

theorem foldlM_congr {f g : σ → α → Option σ} {l : List α}
    (hstep : ∀ a ∈ l, ∀ s, f s a = g s a) (s : σ) : l.foldlM f s = l.foldlM g s := by
  induction l generalizing s with
  | nil => rfl
  | cons a l ih =>
    rw [List.foldlM_cons, List.foldlM_cons, hstep a List.mem_cons_self]
    apply congrArg (Option.bind (g s a))
    funext t
    exact ih (fun b hb => hstep b (List.mem_cons_of_mem a hb)) t

def EndsWith {β : Type} (f : ℕ → Option β) (b : β) : Prop := ∃ k, ∀ n ≥ k, f n = some b

section EndsWith

variable {β γ : Type} {f g : ℕ → Option β} {a : β} {b : γ}

theorem endsWith_const (a : β) : EndsWith (fun _ => some a) a := ⟨0, fun _ _ => rfl⟩

theorem EndsWith.bind {c : ℕ → β → Option γ} (h : EndsWith f a)
    (hnext : EndsWith (fun n => c n a) b) : EndsWith (fun n => (f n).bind (c n)) b := by
  obtain ⟨k, hk⟩ := h
  obtain ⟨k', hk'⟩ := hnext
  refine ⟨max k k', fun n hn => ?_⟩
  change (f n).bind (c n) = some b
  rw [hk n (Nat.le_trans (Nat.le_max_left k k') hn)]
  exact hk' n (Nat.le_trans (Nat.le_max_right k k') hn)

theorem EndsWith.map (h : EndsWith f a) (g : β → γ) : EndsWith (fun n => (f n).map g) (g a) := by
  obtain ⟨k, hk⟩ := h
  refine ⟨k, fun n hn => ?_⟩
  change (f n).map g = some (g a)
  rw [hk n hn, Option.map_some]

theorem EndsWith.succ (h : EndsWith g a) (hcall : ∀ n, f (n + 1) = g n) : EndsWith f a := by
  obtain ⟨k, hk⟩ := h
  refine ⟨k + 1, fun n hn => ?_⟩
  obtain ⟨n, rfl⟩ : ∃ n', n = n' + 1 := ⟨n - 1, by omega⟩
  rw [hcall]
  exact hk n (by omega)

theorem EndsWith.foldlM {δ : Type} {turn : ℕ → β → δ → Option β} {step : β → δ → β}
    {l : List δ} (hturn : ∀ s, ∀ d ∈ l, EndsWith (fun n => turn n s d) (step s d)) (s : β) :
    EndsWith (fun n => l.foldlM (turn n) s) (l.foldl step s) := by
  induction l generalizing s with
  | nil => exact endsWith_const s
  | cons d l ih =>
    simp only [List.foldlM_cons, List.foldl_cons]
    exact (hturn s d List.mem_cons_self).bind
      (ih (fun s d hd => hturn s d (List.mem_cons_of_mem _ hd)) (step s d))

end EndsWith

end Finishing

section Except

variable {α β σ ε : Type}

theorem except_bind_eq_ok_iff {x : Except ε α} {f : α → Except ε β} {b : β} :
    (x >>= f) = .ok b ↔ ∃ a, x = .ok a ∧ f a = .ok b := by
  cases x with
  | error e =>
    constructor
    · intro h
      cases h
    · rintro ⟨a, h, -⟩
      cases h
  | ok a =>
    constructor
    · intro h
      exact ⟨a, rfl, h⟩
    · rintro ⟨b, hb, h⟩
      cases hb
      exact h

theorem except_ok_eq_ok_iff {a b : α} : (Except.ok a : Except ε α) = .ok b ↔ b = a :=
  ⟨fun h => (Except.ok.inj h).symm, fun h => congrArg Except.ok h.symm⟩

theorem forM_eq_ok_iff {f : α → Except ε Unit} {Check : α → Prop} {l : List α}
    (hstep : ∀ a ∈ l, (f a = .ok () ↔ Check a)) : l.forM f = .ok () ↔ ∀ a ∈ l, Check a := by
  induction l with
  | nil => exact ⟨fun _ a ha => absurd ha List.not_mem_nil, fun _ => rfl⟩
  | cons a l ih =>
    have htail := ih fun b hb => hstep b (List.mem_cons_of_mem _ hb)
    change (f a >>= fun _ => l.forM f) = .ok () ↔ _
    rw [except_bind_eq_ok_iff, List.forall_mem_cons, ← htail,
      ← hstep a List.mem_cons_self]
    exact ⟨fun ⟨_, hfirst, hrest⟩ => ⟨hfirst, hrest⟩, fun ⟨hfirst, hrest⟩ => ⟨(), hfirst, hrest⟩⟩

variable {f : σ → α → Except ε σ} {g : σ → α → σ}

theorem foldlM_eq_ok_iff (Check : α → Prop) (Inv : σ → Prop) {l : List α}
    (hstep : ∀ s, Inv s → ∀ a ∈ l, ∀ s', f s a = .ok s' ↔ Check a ∧ s' = g s a)
    (hinv : ∀ s, Inv s → ∀ a ∈ l, Inv (g s a)) {s s' : σ} (hs : Inv s) :
    l.foldlM f s = .ok s' ↔ (∀ a ∈ l, Check a) ∧ s' = l.foldl g s := by
  induction l generalizing s with
  | nil =>
    have hnone : ∀ a ∈ ([] : List α), Check a := fun a ha => absurd ha List.not_mem_nil
    exact except_ok_eq_ok_iff.trans (and_iff_right hnone).symm
  | cons a l ih =>
    have htail := ih (fun s hs b hb => hstep s hs b (List.mem_cons_of_mem _ hb))
      (fun s hs b hb => hinv s hs b (List.mem_cons_of_mem _ hb)) (hinv s hs a List.mem_cons_self)
    have hhead := hstep s hs a List.mem_cons_self
    rw [List.foldlM_cons, except_bind_eq_ok_iff, List.forall_mem_cons, List.foldl_cons, and_assoc,
      ← htail]
    constructor
    · rintro ⟨t, hturn, hrest⟩
      obtain ⟨hcheck, rfl⟩ := (hhead t).mp hturn
      exact ⟨hcheck, hrest⟩
    · rintro ⟨hcheck, hrest⟩
      exact ⟨g s a, (hhead _).mpr ⟨hcheck, rfl⟩, hrest⟩

end Except

section Frame

theorem not_mem_of_nodup_flatMap {ι κ : Type} {f : ι → List κ} {before rest : List ι} {c : ι}
    (h : ((before ++ c :: rest).flatMap f).Nodup) {x : κ} (hx : x ∈ f c) :
    (∀ a ∈ before, x ∉ f a) ∧ ∀ a ∈ rest, x ∉ f a := by
  rw [List.flatMap_append, List.flatMap_cons, List.nodup_append, List.nodup_append] at h
  obtain ⟨-, ⟨-, -, hrest⟩, hbefore⟩ := h
  constructor
  · intro a ha hmem
    exact hbefore x (List.mem_flatMap_of_mem ha hmem) x (List.mem_append_left _ hx) rfl
  · intro a ha hmem
    exact hrest x hx x (List.mem_flatMap_of_mem ha hmem) rfl

variable {α β σ : Type} {g : σ → α → σ} (view : σ → β)

theorem foldl_frame {l : List α} (hframe : ∀ a ∈ l, ∀ s, view (g s a) = view s) (s : σ) :
    view (l.foldl g s) = view s := by
  induction l generalizing s with
  | nil => rfl
  | cons a l ih =>
    rw [List.foldl_cons, ih fun b hb => hframe b (List.mem_cons_of_mem _ hb)]
    exact hframe a List.mem_cons_self s

theorem foldl_frame_except {before rest : List α} {c : α}
    (hbefore : ∀ a ∈ before, ∀ s, view (g s a) = view s)
    (hrest : ∀ a ∈ rest, ∀ s, view (g s a) = view s) (s : σ) :
    ∃ t, view t = view s ∧ view ((before ++ c :: rest).foldl g s) = view (g t c) := by
  refine ⟨before.foldl g s, foldl_frame view hbefore s, ?_⟩
  rw [List.foldl_append, List.foldl_cons]
  exact foldl_frame view hrest _

end Frame

/-! ### Triples

`Leads f P l Q`: started in any state of `P` the machine reads `l` without refusing anything, and is
in a state of `Q` afterwards. -/

section Triple

variable {σ α ε : Type} {f : σ → α → Except ε σ} {P Q Q' R : σ → Prop} {l l' : List α}

def Leads (f : σ → α → Except ε σ) (P : σ → Prop) (l : List α) (Q : σ → Prop) : Prop :=
  ∀ s, P s → ∃ s', l.foldlM f s = .ok s' ∧ Q s'

theorem Leads.nil (himp : ∀ s, P s → Q s) : Leads f P [] Q :=
  fun s hs => ⟨s, rfl, himp s hs⟩

theorem Leads.cons {a : α} (hstep : ∀ s, P s → ∃ s', f s a = .ok s' ∧ Q s')
    (hrest : Leads f Q l R) : Leads f P (a :: l) R := by
  intro s hs
  obtain ⟨t, hturn, ht⟩ := hstep s hs
  obtain ⟨s', hloop, hs'⟩ := hrest t ht
  refine ⟨s', ?_, hs'⟩
  rw [List.foldlM_cons, hturn]
  exact hloop

theorem Leads.single {a : α} (hstep : ∀ s, P s → ∃ s', f s a = .ok s' ∧ Q s') :
    Leads f P [a] Q :=
  Leads.cons hstep (Leads.nil fun _ hs => hs)

theorem Leads.append (hfirst : Leads f P l Q) (hsecond : Leads f Q l' R) :
    Leads f P (l ++ l') R := by
  intro s hs
  obtain ⟨t, hloop, ht⟩ := hfirst s hs
  obtain ⟨s', hloop', hs'⟩ := hsecond t ht
  refine ⟨s', ?_, hs'⟩
  rw [List.foldlM_append, hloop]
  exact hloop'

theorem Leads.post (h : Leads f P l Q) (himp : ∀ s, Q s → Q' s) : Leads f P l Q' := by
  intro s hs
  obtain ⟨s', hloop, hs'⟩ := h s hs
  exact ⟨s', hloop, himp s' hs'⟩

/-- **The loop rule.** -/
theorem Leads.loop (hstep : ∀ a ∈ l, ∀ s, P s → ∃ s', f s a = .ok s' ∧ P s') :
    Leads f P l P := by
  induction l with
  | nil => exact Leads.nil fun _ hs => hs
  | cons a l ih =>
    apply Leads.cons (hstep a List.mem_cons_self)
    exact ih fun b hb => hstep b (List.mem_cons_of_mem a hb)

end Triple

section Walking

variable {σ α : Type} [DecidableEq α]

/-- A walk over a linked list. A turn may take an element off the list, the first one that equals the
element it names; `before` are the elements passed that are still there, `gone` those taken off before
the walk has come to them. An element that is taken off while it is visited has no next one any more. -/
def walkList (turn : σ → α → Option α × σ) : List α → List α → List α → σ → σ
  | _, _, [], s => s
  | before, gone, a :: l, s =>
    if a ∈ gone then walkList turn before (gone.erase a) l s
    else
      match turn s a with
      | (none, s) => walkList turn (a :: before) gone l s
      | (some b, s) =>
        if b ∈ before then walkList turn (a :: before.erase b) gone l s
        else if b = a then s
        else walkList turn (a :: before) (b :: gone) l s

variable {turn : σ → α → Option α × σ} {before gone l : List α}

theorem walkList_preserves {r : σ → σ → Prop} (hrefl : ∀ s, r s s)
    (htrans : ∀ s t u, r s t → r t u → r s u) (hturn : ∀ s, ∀ a ∈ l, r s (turn s a).2) (s : σ) :
    r s (walkList turn before gone l s) := by
  induction l generalizing before gone s with
  | nil => exact hrefl s
  | cons a l ih =>
    replace ih := fun before gone => @ih before gone fun s b hb =>
      hturn s b (List.mem_cons_of_mem a hb)
    rw [walkList]
    split
    · exact ih _ _ s
    have hstep := hturn s a List.mem_cons_self
    split <;> rename_i heq <;> rw [heq] at hstep
    · exact htrans _ _ _ hstep (ih _ _ _)
    split
    · exact htrans _ _ _ hstep (ih _ _ _)
    split
    · exact hstep
    · exact htrans _ _ _ hstep (ih _ _ _)

/-- Where no turn takes anything off, the walk is a loop. -/
theorem walkList_eq_foldl (hturn : ∀ s, ∀ a ∈ l, (turn s a).1 = none) (s : σ) :
    walkList turn before [] l s = l.foldl (fun s a => (turn s a).2) s := by
  induction l generalizing before s with
  | nil => rfl
  | cons a l ih =>
    rw [walkList, if_neg List.not_mem_nil, List.foldl_cons]
    have hnone := hturn s a List.mem_cons_self
    split <;> rename_i heq <;> rw [heq] at hnone
    · rw [heq]
      exact ih (fun s b hb => hturn s b (List.mem_cons_of_mem a hb)) _
    · cases hnone

example : walkList (fun (seen : List ℕ) a => (if a = 1 then some 1 else none, seen ++ [a])) [] []
    [0, 1, 2] [] = [0, 1] := rfl

end Walking

end Openmoko
