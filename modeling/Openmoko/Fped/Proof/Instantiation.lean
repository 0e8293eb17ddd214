import Openmoko.Fped.Instantiate
import Openmoko.Fped.Proof.Undelete

/-!
# Instantiation leaves nothing running

What a call changes is said once for all the functions that call each other, from the objects of a
frame up to the frame: its own rows and loops and those of the frames below it. The frames that it
generates as active are charged to the active reference that leads to them.
-/

namespace Openmoko.Fped.Obj

/-! ### What a call changes -/

section Effects

variable {F T T' L L' : Set Addr} {s s' t : Instantiation}

/-- Only these rows and loops change, and nothing is left behind. The search stands still while it
is suspended, and what has been found at the active choice stays found there. -/
structure Effect (T L : Set Addr) (s s' : Instantiation) : Prop where
  model : s'.model = s.model
  parents : s'.scene.currParent = s.scene.currParent
  marks : s'.frameSet = s.frameSet
  suspended : s'.searchSuspended = s.searchSuspended
  frozen : s.searchSuspended ≠ 0 → s'.found = s.found
  rows : ∀ t ∉ T, s'.scene.currRow t = s.scene.currRow t ∧ s'.foundRow t = s.foundRow t
  loops : ∀ l ∉ L, s'.scene.loopState l = s.scene.loopState l ∧ s'.loopFound l = s.loopFound l
  initialized : ∀ l, (s'.scene.loopState l).initialized = (s.scene.loopState l).initialized
  active : ∀ l, (s'.scene.loopState l).active = (s.scene.loopState l).active
  rowsStay : ∀ t, s.foundRow t = s.model.activeRow t → s'.foundRow t = s.foundRow t
  loopsStay : ∀ l, s.loopFound l = (s.scene.loopState l).active → s'.loopFound l = s.loopFound l

theorem Effect.refl (T L : Set Addr) (s : Instantiation) : Effect T L s s := by
  constructor <;> simp

theorem Effect.mono (h : Effect T L s s') (hT : T ⊆ T') (hL : L ⊆ L') : Effect T' L' s s' where
  __ := h
  rows t ht := h.rows t fun hmem => ht (hT hmem)
  loops l hl := h.loops l fun hmem => hl (hL hmem)

theorem Effect.trans (h : Effect T L s t) (h' : Effect T L t s') : Effect T L s s' where
  model := h'.model.trans h.model
  parents := h'.parents.trans h.parents
  marks := h'.marks.trans h.marks
  suspended := h'.suspended.trans h.suspended
  frozen hne := (h'.frozen (h.suspended ▸ hne)).trans (h.frozen hne)
  rows r hr := ⟨(h'.rows r hr).1.trans (h.rows r hr).1, (h'.rows r hr).2.trans (h.rows r hr).2⟩
  loops l hl :=
    ⟨(h'.loops l hl).1.trans (h.loops l hl).1, (h'.loops l hl).2.trans (h.loops l hl).2⟩
  initialized l := (h'.initialized l).trans (h.initialized l)
  active l := (h'.active l).trans (h.active l)
  rowsStay r hr := (h'.rowsStay r ((h.rowsStay r hr).trans (hr.trans (by rw [h.model])))).trans
    (h.rowsStay r hr)
  loopsStay l hl := (h'.loopsStay l ((h.loopsStay l hl).trans (hl.trans (h.active l).symm))).trans
    (h.loopsStay l hl)

/-- No row is current, and no value, that was not before. -/
structure Clears (s s' : Instantiation) : Prop where
  rows : ∀ t, s.scene.currRow t = none → s'.scene.currRow t = none
  values : ∀ l, (s.scene.loopState l).currValue = none → (s'.scene.loopState l).currValue = none

theorem Clears.refl (s : Instantiation) : Clears s s := ⟨fun _ => id, fun _ => id⟩

theorem Clears.trans (h : Clears s t) (h' : Clears t s') : Clears s s' :=
  ⟨fun r hr => h'.rows r (h.rows r hr), fun l hl => h'.values l (h.values l hl)⟩

/-- The frames have no parent and the loops no value yet. -/
structure Ready (m : Model) (choice : Addr → ℤ) (F L : Set Addr) (s : Instantiation) : Prop where
  model : s.model = m
  choices : ∀ l, (s.scene.loopState l).active = choice l
  parents : ∀ f ∈ F, s.scene.currParent f = none ∧ s.frameSet f = false
  loops : ∀ l ∈ L, (s.scene.loopState l).initialized = false

theorem Effect.ready {m : Model} {choice : Addr → ℤ} (h : Effect T L s s')
    (hs : Ready m choice F L' s) : Ready m choice F L' s' where
  model := h.model.trans hs.model
  choices l := (h.active l).trans (hs.choices l)
  parents f hf := by
    rw [h.parents, h.marks]
    exact hs.parents f hf
  loops l hl := (h.initialized l).trans (hs.loops l hl)

/-- Whatever the items come to, the call returns, and this is what it does; `Logs` is what it says
of the frames that are generated. -/
def Runs (m : Model) (choice : Addr → ℤ) (F T L : Set Addr)
    (Logs : List (Addr × Bool) → Prop) (gen : Generate) : Prop :=
  ∀ s, Ready m choice F L s → ∃ ok s' generated, gen s = some (ok, s') ∧ Effect T L s s' ∧
    (ok = true → Clears s s') ∧ s'.log = s.log ++ generated ∧ Logs generated

theorem Runs.mono {m : Model} {choice : Addr → ℤ} {F' : Set Addr}
    {Logs : List (Addr × Bool) → Prop} {gen : Generate} (h : Runs m choice F T L Logs gen)
    (hF : F ⊆ F') (hT : T ⊆ T') (hL : L ⊆ L') :
    Runs m choice F' T' L' Logs gen := by
  intro s hs
  obtain ⟨ok, s', generated, hrun, heffect, hrest⟩ :=
    h s ⟨hs.model, hs.choices, fun f hf => hs.parents f (hF hf), fun l hl => hs.loops l (hL hl)⟩
  exact ⟨ok, s', generated, hrun, heffect.mono hT hL, hrest⟩

theorem findInst_effect (matching : ℕ) (s : Instantiation) :
    Effect T L s (s.findInst matching) ∧ Clears s (s.findInst matching) ∧
      (s.findInst matching).log = s.log := by
  unfold Instantiation.findInst
  split
  next hzero =>
    refine ⟨?_, ⟨fun _ => id, fun _ => id⟩, rfl⟩
    constructor <;> simp [hzero, Instantiation.model]
  next => exact ⟨Effect.refl T L s, Clears.refl s, rfl⟩

theorem failAt_effect (item : InstItem) (s : Instantiation) : Effect T L s (s.failAt item) := by
  constructor <;> simp [Instantiation.failAt, Instantiation.model]

/-- While the active choice has been found, a turn finds nothing. -/
theorem generateChoice_runs {m : Model} {choice : Addr → ℤ}
    {Logs : List (Addr × Bool) → Prop} {body : Generate}
    (atActive : Instantiation → Bool) (hbody : Runs m choice F T L Logs body)
    (hkept : ∀ s s', Effect T L s s' → atActive s' = atActive s)
    (hsuspend : ∀ s, atActive s.suspendSearch = atActive s) (hs : Ready m choice F L s) :
    ∃ ok s' generated, generateChoice atActive body s = some (ok, s') ∧ Effect T L s s' ∧
      (ok = true → Clears s s') ∧ s'.log = s.log ++ generated ∧ Logs generated ∧
      (atActive s = true → s'.found = s.found) := by
  unfold generateChoice
  cases hat : atActive s with
  | false =>
    obtain ⟨ok, t, generated, hrun, heffect, hclears, hlog, hlogs⟩ := hbody s hs
    refine ⟨ok, t, generated, ?_, heffect, hclears, hlog, hlogs, nofun⟩
    simp only [Bool.false_eq_true, if_false, hrun]
    simp only [Option.bind_eq_bind, Option.bind_some, hkept s t heffect, hat, Bool.false_eq_true,
      if_false]
    rfl
  | true =>
    obtain ⟨ok, t, generated, hrun, heffect, hclears, hlog, hlogs⟩ :=
      hbody s.suspendSearch ⟨hs.model, hs.choices, hs.parents, hs.loops⟩
    have hsuspended : t.searchSuspended = s.searchSuspended + 1 := heffect.suspended
    have hresume : t.resumeSearch = some { t with searchSuspended := s.searchSuspended } := by
      rw [Instantiation.resumeSearch, if_pos (by omega), hsuspended, Nat.add_sub_cancel]
    have hfound : t.found = s.found := heffect.frozen (Nat.succ_ne_zero _)
    have hstill : atActive t = true := (hkept _ t heffect).trans ((hsuspend s).trans hat)
    refine ⟨ok, { t with searchSuspended := s.searchSuspended }, generated, ?_, ?_, ?_, hlog, hlogs,
      fun _ => hfound⟩
    · simp only [if_true, hrun]
      simp only [Option.bind_eq_bind, Option.bind_some, hstill, if_true, hresume]
      rfl
    · exact { heffect with suspended := rfl, frozen := fun _ => hfound }
    · exact fun hok => ⟨(hclears hok).rows, (hclears hok).values⟩

end Effects

section Accounts

variable (m : Model) (rank : Addr → ℕ)

/-- How often the frame that holds the active reference to `g` was generated as active. -/
def parentCount (g : Addr) (generated : List (Addr × Bool)) : ℕ :=
  match m.activeRef g with
  | none => 0
  | some o =>
    if (m.obj o).kind = .frame g ∧ o ∈ m.objs (m.obj o).frame then
      generated.count ((m.obj o).frame, true)
    else 0

/-- Each frame was generated as active at most as often as its parent, but for `f`, which was
generated so `b` times from outside. Nothing above `f` was generated. -/
structure Accounts (f : Addr) (b : ℕ) (generated : List (Addr × Bool)) : Prop where
  above : ∀ g, rank f < rank g → generated.count (g, true) = 0
  le : ∀ g, generated.count (g, true) ≤ parentCount m g generated + if g = f then b else 0

variable {m rank} {f : Addr} {b b' : ℕ} {generated generated' : List (Addr × Bool)}

theorem parentCount_append (g : Addr) :
    parentCount m g (generated ++ generated') =
      parentCount m g generated + parentCount m g generated' := by
  unfold parentCount
  split
  · rfl
  split
  · exact List.count_append
  · rfl

theorem accounts_nil : Accounts m rank f b [] := ⟨fun _ _ => rfl, fun _ => Nat.zero_le _⟩

theorem Accounts.append (h : Accounts m rank f b generated)
    (h' : Accounts m rank f b' generated') :
    Accounts m rank f (b + b') (generated ++ generated') where
  above g hg := by rw [List.count_append, h.above g hg, h'.above g hg]
  le g := by
    have hfirst := h.le g
    have hsecond := h'.le g
    rw [List.count_append, parentCount_append]
    by_cases hg : g = f
    · rw [if_pos hg] at hfirst hsecond ⊢
      omega
    · rw [if_neg hg] at hfirst hsecond ⊢
      omega

theorem Accounts.mono (h : Accounts m rank f b generated) (hle : b ≤ b') :
    Accounts m rank f b' generated where
  above := h.above
  le g := (h.le g).trans (Nat.add_le_add_left (by split <;> omega) _)

end Accounts

/-! ### Rows and turns -/

section Choices

variable {m : Model} {rank : Addr → ℕ} {choice : Addr → ℤ} {f t l : Addr} {F T L : Set Addr}
  {s : Instantiation}

theorem setRow_effect (row : Option Addr) : Effect (insert t T) L s (s.setRow t row) := by
  constructor
  case rows =>
    intro r hr
    exact ⟨Function.update_of_ne (fun heq => hr (Or.inl heq)) _ _, rfl⟩
  all_goals simp [Instantiation.setRow, Instantiation.model]

theorem foundRow_effect {row : Option Addr} (hfound : s.foundRow t ≠ s.model.activeRow t) :
    Effect (insert t T) L s { s with foundRow := Function.update s.foundRow t row } := by
  constructor
  case rows =>
    intro r hr
    exact ⟨rfl, Function.update_of_ne (fun heq => hr (Or.inl heq)) _ _⟩
  case rowsStay =>
    intro r hr
    refine Function.update_of_ne ?_ _ _
    rintro rfl
    exact hfound hr
  all_goals simp [Instantiation.model]

theorem tableRows_runs (ht : t ∉ T) (body : Addr → Generate) (bits : Addr → ℕ)
    (hbody : ∀ row, Runs m choice F T L (Accounts m rank f (bits row)) (body row))
    (rows : List Addr) {s : Instantiation} (hs : Ready m choice F L s) :
    ∃ ok s' generated, tableRows t body rows s = some (ok, s') ∧ Effect (insert t T) L s s' ∧
      (ok = true → Clears (s.setRow t none) s') ∧ s'.log = s.log ++ generated ∧
      Accounts m rank f (rows.map bits).sum generated := by
  induction rows generalizing s with
  | nil =>
    exact ⟨true, _, [], rfl, setRow_effect none, fun _ => Clears.refl _,
      by simp [Instantiation.setRow], accounts_nil⟩
  | cons row rows ih =>
    have hset : Effect (insert t T) L s (s.setRow t (some row)) := setRow_effect _
    obtain ⟨ok, u, generated, hrun, heffect, hclears, hlog, haccounts, hstill⟩ :=
      generateChoice_runs (fun s => s.foundRow t = s.model.activeRow t) (hbody row)
        (fun s s' h => by simp only [(h.rows t ht).2, h.model]) (fun _ => rfl) (hset.ready hs)
    have hturn : Effect (insert t T) L s u :=
      hset.trans (heffect.mono (Set.subset_insert t T) subset_rfl)
    rw [tableRows]
    simp only [hrun, Option.bind_eq_bind, Option.bind_some]
    cases ok with
    | false =>
      refine ⟨false, u, generated, rfl, hturn, nofun, hlog, haccounts.mono ?_⟩
      rw [List.map_cons, List.sum_cons]
      exact Nat.le_add_right _ _
    | true =>
      simp only [Bool.not_true, Bool.false_eq_true, if_false]
      generalize hv : (if s.found ≠ u.found then
        { u with foundRow := Function.update u.foundRow t (some row) } else u) = v
      have hv' : Effect (insert t T) L u v ∧ v.scene = u.scene ∧ v.log = u.log := by
        subst hv
        split
        next hne =>
          refine ⟨foundRow_effect fun hat => hne ?_, rfl, rfl⟩
          exact (hstill (decide_eq_true (by rwa [← (heffect.rows t ht).2, ← heffect.model]))).symm
        next => exact ⟨Effect.refl _ _ u, rfl, rfl⟩
      obtain ⟨hfound, hscene, hsame⟩ := hv'
      obtain ⟨ok, s', rest, hrest, heffect', hclears', hlog', haccounts'⟩ :=
        ih ((hturn.trans hfound).ready hs)
      refine ⟨ok, s', generated ++ rest, hrest, (hturn.trans hfound).trans heffect', ?_, ?_, ?_⟩
      · intro hok
        refine Clears.trans ⟨?_, ?_⟩ (hclears' hok)
        · intro r hr
          by_cases heq : r = t
          · subst heq
            exact Function.update_self ..
          · have hr' : s.scene.currRow r = none := (Function.update_of_ne heq _ _).symm.trans hr
            have hu := (hclears rfl).rows r ((Function.update_of_ne heq _ _).trans hr')
            exact (Function.update_of_ne heq _ _).trans (hscene ▸ hu)
        · intro l hl
          exact (congrArg (fun scene => (scene.loopState l).currValue) hscene).trans
            ((hclears rfl).values l hl)
      · rw [hlog', hsame, hlog]
        exact List.append_assoc ..
      · rw [List.map_cons, List.sum_cons]
        exact haccounts.append haccounts'

variable (change : LoopState → LoopState)

@[simp]
theorem setLoop_self :
    (s.setLoop l change).scene.loopState l = change (s.scene.loopState l) := Function.update_self ..

theorem setLoop_of_ne {k : Addr} (hk : k ≠ l) (change : LoopState → LoopState) :
    (s.setLoop l change).scene.loopState k = s.scene.loopState k := Function.update_of_ne hk _ _

theorem setLoop_field {β : Type} {change : LoopState → LoopState} (field : LoopState → β)
    (hfield : field (change (s.scene.loopState l)) = field (s.scene.loopState l)) (k : Addr) :
    field ((s.setLoop l change).scene.loopState k) = field (s.scene.loopState k) := by
  by_cases heq : k = l
  · subst heq
    rw [setLoop_self, hfield]
  · rw [setLoop_of_ne heq]

theorem setLoop_effect
    (hinitialized : (change (s.scene.loopState l)).initialized = (s.scene.loopState l).initialized)
    (hactive : (change (s.scene.loopState l)).active = (s.scene.loopState l).active) :
    Effect T (insert l L) s (s.setLoop l change) := by
  constructor
  case loops =>
    intro k hk
    exact ⟨setLoop_of_ne (fun heq => hk (Or.inl heq)) _, rfl⟩
  case initialized => exact setLoop_field LoopState.initialized hinitialized
  case active => exact setLoop_field LoopState.active hactive
  all_goals simp [Instantiation.setLoop, Instantiation.model]

theorem loopFound_effect {n : ℤ} (hfound : s.loopFound l ≠ (s.scene.loopState l).active) :
    Effect T (insert l L) s { s with loopFound := Function.update s.loopFound l n } := by
  constructor
  case loops =>
    intro k hk
    exact ⟨rfl, Function.update_of_ne (fun heq => hk (Or.inl heq)) _ _⟩
  case loopsStay =>
    intro k hk
    refine Function.update_of_ne ?_ _ _
    rintro rfl
    exact hfound hk
  all_goals simp [Instantiation.model]

/-- Like `Clears`, but for the loop that is running. -/
structure ClearsOthers (l : Addr) (s s' : Instantiation) : Prop where
  rows : ∀ t, s.scene.currRow t = none → s'.scene.currRow t = none
  values : ∀ k ≠ l, (s.scene.loopState k).currValue = none → (s'.scene.loopState k).currValue = none

theorem ClearsOthers.trans {u s' : Instantiation} (h : ClearsOthers l s u)
    (h' : ClearsOthers l u s') : ClearsOthers l s s' :=
  ⟨fun r hr => h'.rows r (h.rows r hr), fun k hk hv => h'.values k hk (h.values k hk hv)⟩

theorem setLoop_clearsOthers :
    ClearsOthers l s (s.setLoop l change) :=
  ⟨fun _ => id, fun _ hk hv => by rwa [setLoop_of_ne hk]⟩

/-- Of all the turns one at most is the active one. -/
theorem loopTurns_runs (hl : l ∉ L) (to_ : ℚ) (body : ℕ → Generate) {active : Bool}
    (hbody : ∀ n : ℕ,
      Runs m choice F T L (Accounts m rank f (active && choice l = n).toNat) (body n))
    (left n : ℕ) {s : Instantiation} (hs : Ready m choice F L s) :
    ∃ turns s' generated, loopTurns l to_ body left n s = some (turns, s') ∧
      Effect T (insert l L) s s' ∧ (turns.isSome = true → ClearsOthers l s s') ∧
      s'.log = s.log ++ generated ∧
      Accounts m rank f (active && n ≤ choice l).toNat generated := by
  induction left generalizing n s with
  | zero =>
    rw [loopTurns]
    split
    · exact ⟨none, _, [], rfl, failAt_effect _ s, nofun, (List.append_nil _).symm, accounts_nil⟩
    · exact ⟨some n, s, [], rfl, Effect.refl _ _ s, fun _ => ⟨fun _ => id, fun _ _ => id⟩,
        (List.append_nil _).symm, accounts_nil⟩
  | succ left ih =>
    rw [loopTurns]
    split
    case isFalse =>
      exact ⟨some n, s, [], rfl, Effect.refl _ _ s, fun _ => ⟨fun _ => id, fun _ _ => id⟩,
        (List.append_nil _).symm, accounts_nil⟩
    obtain ⟨ok, u, generated, hrun, heffect, hclears, hlog, haccounts, hstill⟩ :=
      generateChoice_runs (fun s => s.loopFound l = (s.scene.loopState l).active)
        (hbody n) (fun s s' h => by simp only [(h.loops l hl).1, (h.loops l hl).2])
        (fun _ => rfl) hs
    have hturn : Effect T (insert l L) s u := heffect.mono subset_rfl (Set.subset_insert l L)
    -- the turns from here on, of which the first may be the active one
    have hbits : (active && choice l = n).toNat + (active && (n + 1 : ℕ) ≤ choice l).toNat ≤
        (active && n ≤ choice l).toNat := by
      cases active with
      | false => exact le_rfl
      | true =>
        by_cases hat : choice l = n
        · simp [hat]
        · have hnext : (n : ℤ) + 1 ≤ choice l ↔ n ≤ choice l := by omega
          simp [hat, hnext]
    simp only [hrun, Option.bind_eq_bind, Option.bind_some]
    cases ok with
    | false =>
      exact ⟨none, u, generated, rfl, hturn, nofun, hlog,
        haccounts.mono ((Nat.le_add_right _ _).trans hbits)⟩
    | true =>
      simp only [Bool.not_true, Bool.false_eq_true, if_false]
      generalize hv : (if s.found ≠ u.found then
        { u with loopFound := Function.update u.loopFound l n } else u) = v
      have hv' : Effect T (insert l L) u v ∧ v.scene = u.scene ∧ v.log = u.log := by
        subst hv
        split
        next hne =>
          refine ⟨loopFound_effect fun hat => hne ?_, rfl, rfl⟩
          refine (hstill (decide_eq_true ?_)).symm
          rwa [← (heffect.loops l hl).2, ← (heffect.loops l hl).1]
        next => exact ⟨Effect.refl _ _ u, rfl, rfl⟩
      obtain ⟨hfound, hscene, hsame⟩ := hv'
      have hnext : Effect T (insert l L) s
          (v.setLoop l fun loop => { loop with currValue := loop.currValue.map (· + 1) }) :=
        (hturn.trans hfound).trans (setLoop_effect _ rfl rfl)
      obtain ⟨turns, s', rest, hrest, heffect', hclears', hlog', haccounts'⟩ :=
        ih (n + 1) (hnext.ready hs)
      refine ⟨turns, s', generated ++ rest, hrest, hnext.trans heffect', fun hsome => ?_, ?_,
        (haccounts.append haccounts').mono hbits⟩
      · have hothers : ClearsOthers l s v :=
          ⟨fun r hr => hscene ▸ (hclears rfl).rows r hr,
            fun k _ hk => hscene ▸ (hclears rfl).values k hk⟩
        exact hothers.trans ((setLoop_clearsOthers _).trans (hclears' hsome))
      · rw [hlog']
        exact (congrArg (· ++ rest) (hsame.trans hlog)).trans (List.append_assoc ..)

theorem insert_union_subset (A : Set Addr) (x : Addr) (l : List Addr) :
    insert x (A ∪ {y | y ∈ l}) ⊆ A ∪ {y | y ∈ x :: l} := by
  rintro y (rfl | hy | hy)
  · exact Or.inr List.mem_cons_self
  · exact Or.inl hy
  · exact Or.inr (List.mem_cons_of_mem _ hy)

theorem Ready.startLoop {L' : Set Addr} (hs : Ready m choice F L' s) (hL : L ⊆ L') (hl : l ∉ L)
    (start : ℚ) :
    Ready m choice F L
      (s.setLoop l fun loop => { loop with currValue := some start, initialized := true }) := by
  refine ⟨hs.model, fun k => (setLoop_field LoopState.active rfl k).trans (hs.choices k),
    hs.parents, fun k hk => ?_⟩
  have hne : k ≠ l := by
    rintro rfl
    exact hl hk
  rw [setLoop_of_ne hne]
  exact hs.loops k (hL hk)

/-- The loop is over, whichever way. -/
theorem Effect.afterLoop {u : Instantiation} {start : ℚ}
    (h : Effect T L (s.setLoop l fun loop =>
      { loop with currValue := some start, initialized := true }) u)
    (hl : l ∈ L) (hinit : (s.scene.loopState l).initialized = false) :
    Effect T L s (u.setLoop l fun loop => { loop with initialized := false }) := by
  refine
    { h with
      loops := fun k hk => ?_, initialized := fun k => ?_,
      active := fun k => (setLoop_field LoopState.active rfl k).trans
        ((h.active k).trans (setLoop_field LoopState.active rfl k)),
      loopsStay := fun k hk =>
        h.loopsStay k (hk.trans (setLoop_field LoopState.active rfl k).symm) }
  · have hne : k ≠ l := fun heq => hk (heq ▸ hl)
    rw [setLoop_of_ne hne]
    exact ⟨(h.loops k hk).1.trans (setLoop_of_ne hne _), (h.loops k hk).2⟩
  · by_cases heq : k = l
    · subst heq
      rw [setLoop_self, hinit]
    · rw [setLoop_of_ne heq, h.initialized k, setLoop_of_ne heq]

end Choices

/-! ### Frames -/

/-- A frame refers only to frames of a lower rank; each item is listed once, by the frame that it is
in, and measurements are in the root frame. -/
structure Nested (m : Model) (rank : Addr → ℕ) : Prop where
  refs : ∀ f, ∀ o ∈ m.objs f, ∀ ref, (m.obj o).kind = .frame ref → rank ref < rank f
  meas : ∀ f, ∀ o ∈ m.objs f, ∀ high quals, (m.obj o).kind = .meas high quals →
    m.frames.head? = some f
  objs_frame : ∀ f, ∀ o ∈ m.objs f, (m.obj o).frame = f
  objs_nodup : ∀ f, (m.objs f).Nodup
  rows_nodup : ∀ t, (m.rows t).Nodup
  tables_nodup : ∀ f, (m.tables f).Nodup
  loops_nodup : ∀ f, (m.loops f).Nodup
  tables_unique : ∀ f g t, t ∈ m.tables f → t ∈ m.tables g → f = g
  loops_unique : ∀ f g l, l ∈ m.loops f → l ∈ m.loops g → f = g

section Frames

variable (m : Model) (rank : Addr → ℕ)

def framesBelow (k : ℕ) : Set Addr := {f | rank f < k}

def tablesBelow (k : ℕ) : Set Addr := {t | ∃ f, rank f < k ∧ t ∈ m.tables f}

def loopsBelow (k : ℕ) : Set Addr := {l | ∃ f, rank f < k ∧ l ∈ m.loops f}

/-- What the calls for these objects generate. The active reference may be among them. -/
structure ObjAccounts (f : Addr) (active : Bool) (objs : List Addr)
    (generated : List (Addr × Bool)) : Prop where
  above : ∀ g, rank f ≤ rank g → generated.count (g, true) = 0
  none : ∀ g, (active = false ∨ ∀ o ∈ objs, ¬(m.activeRef g = some o ∧ (m.obj o).kind = .frame g)) →
    generated.count (g, true) ≤ parentCount m g generated
  one : ∀ g, generated.count (g, true) ≤ parentCount m g generated + 1

variable {m rank} {choice : Addr → ℤ} {f : Addr} {active : Bool} {items : ItemOracle}
  {recurse : Addr → Option Addr → Option Addr → Bool → Generate}

variable {objs : List Addr}

theorem ObjAccounts.nil : ObjAccounts m rank f active objs [] :=
  ⟨fun _ _ => rfl, fun _ _ => Nat.zero_le _, fun _ => Nat.zero_le _⟩

theorem ObjAccounts.weaken {o : Addr} {generated : List (Addr × Bool)}
    (h : ObjAccounts m rank f active objs generated) :
    ObjAccounts m rank f active (o :: objs) generated where
  above := h.above
  none g hg := h.none g (hg.imp_right fun hg o' ho' => hg o' (List.mem_cons_of_mem _ ho'))
  one := h.one

theorem ObjAccounts.cons {o ref : Addr} {generated rest : List (Addr × Bool)}
    (hrest : ObjAccounts m rank f active objs rest) (hkind : (m.obj o).kind = .frame ref)
    (hlt : rank ref < rank f) (ho : o ∉ objs)
    (hfirst : Accounts m rank ref (active && m.activeRef ref = some o).toNat generated) :
    ObjAccounts m rank f active (o :: objs) (generated ++ rest) := by
  have hle (g : Addr) : generated.count (g, true) ≤ parentCount m g generated +
      if active = true ∧ m.activeRef g = some o ∧ (m.obj o).kind = .frame g then 1 else 0 := by
    refine (hfirst.le g).trans (Nat.add_le_add_left ?_ _)
    by_cases hg : g = ref
    · subst hg
      rw [if_pos rfl]
      cases active <;> by_cases href : m.activeRef g = some o <;> simp [hkind, href]
    · rw [if_neg hg]
      exact Nat.zero_le _
  refine ⟨fun g hg => ?_, fun g hg => ?_, fun g => ?_⟩
  · rw [List.count_append, hfirst.above g (hlt.trans_le hg), hrest.above g hg]
  · have hthis := hle g
    rw [if_neg (by
      rintro ⟨rfl, hactive⟩
      exact hg.elim nofun fun hg => hg o List.mem_cons_self hactive)] at hthis
    have hothers := hrest.none g (hg.imp_right fun hg o' ho' => hg o' (List.mem_cons_of_mem _ ho'))
    rw [List.count_append, parentCount_append]
    omega
  · have hthis := hle g
    rw [List.count_append, parentCount_append]
    by_cases hactive : active = true ∧ m.activeRef g = some o ∧ (m.obj o).kind = .frame g
    · -- the active reference is this one, and none of the others
      have hothers := hrest.none g (Or.inr fun o' ho' hactive' => ho
        (Option.some.inj (hactive.2.1.symm.trans hactive'.1) ▸ ho'))
      rw [if_pos hactive] at hthis
      omega
    · rw [if_neg hactive] at hthis
      have hothers := hrest.one g
      omega

/-- What is asked of the calls for the frames that `f` refers to. -/
def CallsRun (m : Model) (choice : Addr → ℤ) (rank : Addr → ℕ) (f : Addr)
    (recurse : Addr → Option Addr → Option Addr → Bool → Generate) : Prop :=
  ∀ ref, rank ref < rank f → ∀ parent frameRef active,
    Runs m choice (framesBelow rank (rank f)) (tablesBelow m rank (rank f))
      (loopsBelow m rank (rank f)) (Accounts m rank ref active.toNat)
      (recurse ref parent frameRef active)

theorem generateObjs_runs (hnested : Nested m rank) (hcalls : CallsRun m choice rank f recurse)
    (hobjs : ∀ o ∈ objs, o ∈ m.objs f) (hnodup : objs.Nodup) :
    Runs m choice (framesBelow rank (rank f)) (tablesBelow m rank (rank f))
      (loopsBelow m rank (rank f)) (ObjAccounts m rank f active objs)
      (generateObjs items recurse f active objs) := by
  induction objs with
  | nil =>
    exact fun s _ => ⟨true, s, [], rfl, Effect.refl _ _ s, fun _ => Clears.refl s,
      (List.append_nil _).symm, ObjAccounts.nil⟩
  | cons o objs ih =>
    have ih := ih (fun o' ho' => hobjs o' (List.mem_cons_of_mem _ ho')) hnodup.of_cons
    intro s hs
    rw [generateObjs, hs.model]
    split
    case h_1 ref hkind =>
      have hlt := hnested.refs f o (hobjs o List.mem_cons_self) ref hkind
      obtain ⟨ok, u, generated, hrun, heffect, hclears, hlog, haccounts⟩ :=
        hcalls ref hlt (some f) (some o) (active && m.activeRef ref = some o) s hs
      simp only [hrun, Option.bind_eq_bind, Option.bind_some]
      cases ok with
      | false =>
        have hnil : ObjAccounts m rank f active objs [] := ObjAccounts.nil
        have hcons := hnil.cons hkind hlt (List.nodup_cons.mp hnodup).1 haccounts
        rw [List.append_nil] at hcons
        exact ⟨false, u, generated, rfl, heffect, nofun, hlog, hcons⟩
      | true =>
        obtain ⟨ok, s', rest, hrest, heffect', hclears', hlog', haccounts'⟩ :=
          ih u (heffect.ready hs)
        refine ⟨ok, s', generated ++ rest, hrest, heffect.trans heffect',
          fun hok => (hclears rfl).trans (hclears' hok), ?_,
          haccounts'.cons hkind hlt (List.nodup_cons.mp hnodup).1 haccounts⟩
        rw [hlog', hlog, List.append_assoc]
    case h_2 hkind =>
      rw [if_neg]
      · simp only
        obtain ⟨hfind, hfindClears, hfindLog⟩ := findInst_effect
          (T := tablesBelow m rank (rank f)) (L := loopsBelow m rank (rank f)) (items.obj s o).1 s
        split
        · obtain ⟨ok, s', rest, hrest, heffect', hclears', hlog', haccounts'⟩ :=
            ih _ (hfind.ready hs)
          exact ⟨ok, s', rest, hrest, hfind.trans heffect',
            fun hok => hfindClears.trans (hclears' hok), hlog'.trans (by rw [hfindLog]),
            haccounts'.weaken⟩
        · exact ⟨false, _, [], rfl, hfind.trans (failAt_effect _ _), nofun,
            hfindLog.trans (List.append_nil _).symm, ObjAccounts.nil⟩
      · rintro ⟨hmeas, hroot⟩
        cases hk : (m.obj o).kind with
        | meas high quals =>
          exact hroot (hnested.meas f o (hobjs o List.mem_cons_self) high quals hk)
        | _ => simp [hk] at hmeas

theorem generateItems_runs (hnested : Nested m rank) (hcalls : CallsRun m choice rank f recurse) :
    Runs m choice (framesBelow rank (rank f)) (tablesBelow m rank (rank f))
      (loopsBelow m rank (rank f)) (Accounts m rank f active.toNat)
      (generateItems items recurse f active) := by
  have haccounts {generated : List (Addr × Bool)}
      (h : ObjAccounts m rank f active (m.objs f) generated) :
      Accounts m rank f active.toNat ((f, active) :: generated) := by
    refine ⟨fun g hg => ?_, fun g => ?_⟩
    · have hne : (f, active) ≠ (g, true) := fun heq => hg.ne (congrArg rank (Prod.ext_iff.mp heq).1)
      rw [List.count_cons_of_ne hne, h.above g hg.le]
    · rw [← List.singleton_append, List.count_append, parentCount_append]
      have hself : [(f, active)].count (g, true) = if g = f then active.toNat else 0 := by
        by_cases hg : g = f
        · subst hg
          cases active <;> simp
        · rw [if_neg hg, List.count_eq_zero, List.mem_singleton]
          exact fun heq => hg (Prod.ext_iff.mp heq).1
      by_cases hactive : active = true ∧ ∃ o ∈ m.objs f,
          m.activeRef g = some o ∧ (m.obj o).kind = .frame g
      · obtain ⟨rfl, o, ho, hactive, hkind⟩ := hactive
        have hparent : parentCount m g [(f, true)] = 1 := by
          rw [parentCount, hactive]
          simp only [hkind, hnested.objs_frame f o ho, ho, and_self, if_true]
          exact List.count_singleton_self
        have hone := h.one g
        omega
      · have hnone := h.none g (by
          rw [or_iff_not_imp_left, Bool.not_eq_false]
          exact fun htrue o ho hboth => hactive ⟨htrue, o, ho, hboth⟩)
        omega
  intro s hs
  have hlog : Effect (tablesBelow m rank (rank f)) (loopsBelow m rank (rank f)) s
      { s with log := s.log ++ [(f, active)] } := by
    constructor <;> simp [Instantiation.model]
  unfold generateItems
  simp only
  obtain ⟨hfind, hfindClears, hfindLog⟩ := findInst_effect
    (T := tablesBelow m rank (rank f)) (L := loopsBelow m rank (rank f))
    (items.vecs { s with log := s.log ++ [(f, active)] } f).1
    { s with log := s.log ++ [(f, active)] }
  split
  · exact ⟨false, _, [(f, active)], rfl, (hlog.trans hfind).trans (failAt_effect _ _), nofun,
      hfindLog,
      haccounts ObjAccounts.nil⟩
  · have hready := (hlog.trans hfind).ready hs
    rw [hready.model]
    obtain ⟨ok, s', generated, hrun, heffect, hclears, hlog', hobjs⟩ := generateObjs_runs hnested
      hcalls (fun _ => id) (hnested.objs_nodup f) _ hready
    refine ⟨ok, s', (f, active) :: generated, hrun, (hlog.trans hfind).trans heffect,
      fun hok => ?_, ?_,
      haccounts hobjs⟩
    · have hstart : Clears s { s with log := s.log ++ [(f, active)] } :=
        ⟨fun _ => id, fun _ => id⟩
      exact (hstart.trans hfindClears).trans (hclears hok)
    · rw [hlog', hfindLog]
      exact List.append_assoc ..

theorem runLoops_runs (hnested : Nested m rank) (hcalls : CallsRun m choice rank f recurse)
    {loops : List Addr} (hloops : ∀ l ∈ loops, l ∈ m.loops f) (hnodup : loops.Nodup)
    (active : Bool) :
    Runs m choice (framesBelow rank (rank f)) (tablesBelow m rank (rank f))
      (loopsBelow m rank (rank f) ∪ {l | l ∈ loops})
      (Accounts m rank f active.toNat) (runLoops items recurse f active loops) := by
  induction loops generalizing active with
  | nil =>
    exact (generateItems_runs hnested hcalls).mono subset_rfl subset_rfl Set.subset_union_left
  | cons l loops ih =>
    have ih := ih (fun l' hl' => hloops l' (List.mem_cons_of_mem _ hl')) hnodup.of_cons
    have hl : l ∉ loopsBelow m rank (rank f) ∪ {l | l ∈ loops} := by
      rintro (⟨g, hlt, hg⟩ | hmem)
      · exact hlt.ne (congrArg rank (hnested.loops_unique g f l hg (hloops l List.mem_cons_self)))
      · exact (List.nodup_cons.mp hnodup).1 hmem
    have hinsert := insert_union_subset (loopsBelow m rank (rank f)) l loops
    intro s hs
    have hinit : (s.scene.loopState l).initialized = false :=
      hs.loops l (Or.inr List.mem_cons_self)
    rw [runLoops]
    split
    case h_2 =>
      exact ⟨false, _, [], rfl, failAt_effect _ s, nofun, (List.append_nil _).symm, accounts_nil⟩
    case h_1 start to_ _ _ =>
      rw [hinit]
      simp only [Bool.false_eq_true, if_false]
      have hrunning := hs.startLoop ((Set.subset_insert l _).trans hinsert) hl start
      obtain ⟨turns, u, generated, hrun, heffect, hclears, hlog, haccounts⟩ := loopTurns_runs hl to_
        (fun n s => runLoops items recurse f (active && (s.scene.loopState l).active = n) loops s)
        (fun n t ht => by
          simp only [ht.choices l]
          exact ih _ t ht) MAX_ITERATIONS 0 hrunning
      have hdone := (heffect.mono subset_rfl hinsert).afterLoop (Or.inr List.mem_cons_self) hinit
      have hactive : (active && (0 : ℕ) ≤ choice l).toNat ≤ active.toNat :=
        Bool.toNat_le_toNat (Bool.and_le_left _ _)
      simp only [hrun, Option.bind_eq_bind, Option.bind_some]
      cases turns with
      | none => exact ⟨false, _, generated, rfl, hdone, nofun, hlog, haccounts.mono hactive⟩
      | some n =>
        have hset (u : Instantiation) (change : LoopState → LoopState)
            (hinitialized : (change (u.scene.loopState l)).initialized =
              (u.scene.loopState l).initialized)
            (hactive : (change (u.scene.loopState l)).active = (u.scene.loopState l).active) :
            Effect (tablesBelow m rank (rank f))
              (loopsBelow m rank (rank f) ∪ {l' | l' ∈ l :: loops}) u (u.setLoop l change) :=
          (setLoop_effect change hinitialized hactive).mono subset_rfl
            (Set.insert_subset (Or.inr List.mem_cons_self) subset_rfl)
        have hcleared := hdone.trans (hset _ (fun loop => { loop with currValue := none }) rfl rfl)
        have hothers := hclears rfl
        refine ⟨true, _, generated, rfl, ?_, fun _ => ⟨fun r hr => ?_, fun k hk => ?_⟩, ?_,
          haccounts.mono hactive⟩
        · split
          · refine (hcleared.trans (hset _ (fun loop => { loop with n := start }) rfl rfl)).trans ?_
            constructor <;> simp [Instantiation.model]
          · exact hcleared
        · have hu := hothers.rows r hr
          split <;> exact hu
        · by_cases heq : k = l
          · subst heq
            split <;> simp
          · have hu := hothers.values k heq (by rwa [setLoop_of_ne heq])
            split <;> simpa [setLoop_of_ne heq] using hu
        · split <;> exact hlog

/-- Of all the rows one at most is the active one. -/
theorem sum_active_le {rows : List Addr} {row : Option Addr} (hnodup : rows.Nodup) :
    (rows.map fun r => (active && row = some r).toNat).sum ≤ active.toNat := by
  have hcount : (rows.map fun r => (active && row = some r).toNat).sum =
      rows.countP fun r => active && row = some r := by
    induction rows with
    | nil => rfl
    | cons r rows ih =>
      rw [List.map_cons, List.sum_cons, ih hnodup.of_cons, List.countP_cons, Nat.add_comm]
      cases active && decide (row = some r) <;> rfl
  rw [hcount]
  cases active with
  | false => simp
  | true =>
    cases row with
    | none => simp
    | some row =>
      calc rows.countP (fun r => true && decide (some row = some r))
          = rows.count row := List.countP_congr fun r _ => by
            rw [Bool.true_and, decide_eq_true_eq, Option.some.injEq, beq_iff_eq]
            exact eq_comm
        _ ≤ 1 := List.nodup_iff_count_le_one.mp hnodup row

theorem iterateTables_runs (hnested : Nested m rank) (hcalls : CallsRun m choice rank f recurse)
    {tables : List Addr} (htables : ∀ t ∈ tables, t ∈ m.tables f) (hnodup : tables.Nodup)
    (active : Bool) :
    Runs m choice (framesBelow rank (rank f)) (tablesBelow m rank (rank f) ∪ {t | t ∈ tables})
      (loopsBelow m rank (rank f) ∪ {l | l ∈ m.loops f})
      (Accounts m rank f active.toNat) (iterateTables items recurse f active tables) := by
  induction tables generalizing active with
  | nil =>
    intro s hs
    rw [iterateTables, hs.model]
    exact (runLoops_runs hnested hcalls (fun _ => id) (hnested.loops_nodup f) active).mono
      subset_rfl Set.subset_union_left subset_rfl s hs
  | cons t tables ih =>
    have ht : t ∉ tablesBelow m rank (rank f) ∪ {t | t ∈ tables} := by
      rintro (⟨g, hlt, hg⟩ | hmem)
      · exact hlt.ne (congrArg rank (hnested.tables_unique g f t hg (htables t List.mem_cons_self)))
      · exact (List.nodup_cons.mp hnodup).1 hmem
    have hinsert := insert_union_subset (tablesBelow m rank (rank f)) t tables
    intro s hs
    rw [iterateTables, hs.model]
    obtain ⟨ok, s', generated, hrun, heffect, hclears, hlog, haccounts⟩ := tableRows_runs ht
      (fun row s =>
        iterateTables items recurse f (active && s.model.activeRow t = some row) tables s)
      (fun row => (active && m.activeRow t = some row).toNat)
      (fun row u hu => by
        simp only [hu.model]
        exact ih (fun t' ht' => htables t' (List.mem_cons_of_mem _ ht')) hnodup.of_cons _ u hu)
      (m.rows t) hs
    refine ⟨ok, s', generated, hrun, heffect.mono hinsert subset_rfl, fun hok => ?_, hlog,
      haccounts.mono (sum_active_le (hnested.rows_nodup t))⟩
    have hset : Clears s (s.setRow t none) := by
      refine ⟨fun r hr => ?_, fun _ => id⟩
      by_cases heq : r = t
      · subst heq
        exact Function.update_self ..
      · exact (Function.update_of_ne heq _ _).trans hr
    exact hset.trans (hclears hok)

/-- `curr_parent` and the mark of the frame are as they were: it cannot be entered within itself. -/
theorem generateFrame_runs (hnested : Nested m rank) (depth : ℕ) {f : Addr} (hf : rank f < depth)
    (parent frameRef : Option Addr) (active : Bool) :
    Runs m choice (framesBelow rank (rank f + 1)) (tablesBelow m rank (rank f + 1))
      (loopsBelow m rank (rank f + 1)) (Accounts m rank f active.toNat)
      (generateFrame items depth f parent frameRef active) := by
  induction depth generalizing f parent frameRef active with
  | zero => exact absurd hf (Nat.not_lt_zero _)
  | succ depth ih =>
    have hcalls : CallsRun m choice rank f (generateFrame items depth) := by
      intro ref href parent frameRef active
      refine (ih (href.trans_le (Nat.lt_succ_iff.mp hf)) parent frameRef active).mono ?_ ?_ ?_
      · exact fun g hg => (Nat.lt_succ_iff.mp hg).trans_lt href
      · exact fun t ⟨g, hg, ht⟩ => ⟨g, (Nat.lt_succ_iff.mp hg).trans_lt href, ht⟩
      · exact fun l ⟨g, hg, hl⟩ => ⟨g, (Nat.lt_succ_iff.mp hg).trans_lt href, hl⟩
    have htables : tablesBelow m rank (rank f) ∪ {t | t ∈ m.tables f} ⊆
        tablesBelow m rank (rank f + 1) := by
      rintro t (⟨g, hg, ht⟩ | ht)
      · exact ⟨g, Nat.lt_succ_of_lt hg, ht⟩
      · exact ⟨f, Nat.lt_succ_self _, ht⟩
    have hloops : loopsBelow m rank (rank f) ∪ {l | l ∈ m.loops f} ⊆
        loopsBelow m rank (rank f + 1) := by
      rintro l (⟨g, hg, hl⟩ | hl)
      · exact ⟨g, Nat.lt_succ_of_lt hg, hl⟩
      · exact ⟨f, Nat.lt_succ_self _, hl⟩
    intro s₀ hs₀
    obtain ⟨hfind, hfindClears, hfindLog⟩ := findInst_effect (T := tablesBelow m rank (rank f + 1))
      (L := loopsBelow m rank (rank f + 1)) (items.frame s₀ f frameRef) s₀
    have hs := hfind.ready hs₀
    rw [generateFrame]
    dsimp only
    generalize s₀.findInst (items.frame s₀ f frameRef) = s at *
    obtain ⟨hparent, hmark⟩ := hs.parents f (Nat.lt_succ_self _)
    have hinside : Ready m choice (framesBelow rank (rank f))
        (loopsBelow m rank (rank f) ∪ {l | l ∈ m.loops f}) (s.setParent f true parent) := by
      refine ⟨hs.model, hs.choices, fun g hg => ?_, fun l hl => hs.loops l (hloops hl)⟩
      have hne : g ≠ f := by
        rintro rfl
        exact (lt_irrefl (rank g)) hg
      obtain ⟨hparent', hmark'⟩ := hs.parents g (Nat.lt_succ_of_lt hg)
      exact ⟨(Function.update_of_ne hne _ _).trans hparent',
        (Function.update_of_ne hne _ _).trans hmark'⟩
    have hitems : Runs m choice _ _ _ _
        (iterateTables items (generateFrame items depth) f active (m.tables f)) :=
      iterateTables_runs hnested hcalls (fun _ => id) (hnested.tables_nodup f) active
    obtain ⟨ok, u, generated, hrun, heffect, hclears, hlog, haccounts⟩ := hitems _ hinside
    have hmodel : (s.setParent f true parent).model = m := hs.model
    refine ⟨ok, u.setParent f false none, generated, ?_, hfind.trans ?_, fun hok =>
      hfindClears.trans ⟨(hclears hok).rows, (hclears hok).values⟩,
      hlog.trans (congrArg (· ++ generated) hfindLog), haccounts⟩
    · simp only [hmodel, hrun]
      rfl
    · refine { heffect.mono htables hloops with parents := ?_, marks := ?_ }
      · calc Function.update u.scene.currParent f none
            = Function.update (Function.update s.scene.currParent f parent) f none :=
              congrArg (Function.update · f none) heffect.parents
          _ = s.scene.currParent := by
              rw [Function.update_idem, ← hparent, Function.update_eq_self]
      · calc Function.update u.frameSet f false
            = Function.update (Function.update s.frameSet f true) f false :=
              congrArg (Function.update · f false) heffect.marks
          _ = s.frameSet := by rw [Function.update_idem, ← hmark, Function.update_eq_self]

end Frames

/-! ### Instantiation as a whole -/

/-- No frame has a parent and no loop is running, as in editing mode. -/
structure Instantiation.Idle (s : Instantiation) : Prop where
  parents : ∀ f, s.scene.currParent f = none
  loops : ∀ l, (s.scene.loopState l).initialized = false

/-- "Current" is reset to a null value. -/
def Instantiation.Settled (s : Instantiation) : Prop :=
  (∀ t, s.scene.currRow t = none) ∧ ∀ l, (s.scene.loopState l).currValue = none

section Whole

variable {rank : Addr → ℕ} {items : ItemOracle} {depth : ℕ} {searching : Bool}
  {finish : Instantiation → Bool} {s s' : Instantiation} {ok : Bool} {root : Addr}
  {frames : List Addr}

theorem Instantiation.Idle.activateFound (h : s.Idle) : (activateFound s).Idle where
  parents := h.parents
  loops l := by
    unfold Obj.activateFound
    dsimp only
    split <;> exact h.loops l

theorem Instantiation.Settled.activateFound (h : s.Settled) : (activateFound s).Settled := by
  refine ⟨h.1, fun l => ?_⟩
  unfold Obj.activateFound
  dsimp only
  split <;> exact h.2 l

variable (items searching finish) in
/-- The call for the root, between what is reset and what is activated. -/
theorem exists_generateFrame (hnested : Nested s.model rank)
    (hframes : s.model.frames = root :: frames) (hdepth : rank root < depth) (hidle : s.Idle) :
    ∃ start ok u, start.scene = s.scene ∧ start.log = [] ∧ start.searchSuspended = 0 ∧
      start.frameSet = (fun _ => false) ∧
      instantiate items depth searching finish s =
        some (ok && finish (if ok ∧ searching ∧ u.found ≠ 0 then activateFound u else u),
          if ok ∧ searching ∧ u.found ≠ 0 then activateFound u else u) ∧
      Effect (tablesBelow s.model rank (rank root + 1)) (loopsBelow s.model rank (rank root + 1))
        start u ∧
      (ok = true → Clears start u) ∧ Accounts s.model rank root 1 u.log := by
  let start : Instantiation :=
    { resetFound (resetAllLoops s) with
      frameSet := fun _ => false, error := none, log := [], found := 0, searchSuspended := 0 }
  have hready : Ready s.model (fun l => (s.scene.loopState l).active)
      (framesBelow rank (rank root + 1)) (loopsBelow s.model rank (rank root + 1)) start :=
    ⟨rfl, fun _ => rfl, fun f _ => ⟨hidle.parents f, rfl⟩, fun l _ => hidle.loops l⟩
  obtain ⟨ok, u, generated, hrun, heffect, hclears, hlog, haccounts⟩ :=
    generateFrame_runs hnested depth hdepth none none true start hready
  refine ⟨start, ok, u, rfl, rfl, rfl, rfl, ?_, heffect, hclears, ?_⟩
  · unfold instantiate
    rw [hframes]
    exact Option.bind_eq_some_iff.mpr ⟨(ok, u), hrun, rfl⟩
  · rwa [hlog]

/-- **Instantiation returns and leaves nothing running**, whatever the items come to: no assertion
fails, and when it succeeds, nothing is current either. -/
theorem instantiate_idle (hnested : Nested s.model rank) (hframes : s.model.frames = root :: frames)
    (hdepth : rank root < depth) (hidle : s.Idle) :
    ∃ ok s', instantiate items depth searching finish s = some (ok, s') ∧ s'.Idle ∧
      s'.frameSet = (fun _ => false) ∧ s'.searchSuspended = 0 ∧
      (ok = true → s.Settled → s'.Settled) := by
  obtain ⟨start, ok, u, hscene, -, hsuspended, hset, hrun, heffect, hclears, -⟩ :=
    exists_generateFrame items searching finish hnested hframes hdepth hidle
  have hu : u.Idle :=
    ⟨fun f => by rw [heffect.parents, hscene]; exact hidle.parents f,
      fun l => by rw [heffect.initialized, hscene]; exact hidle.loops l⟩
  refine ⟨_, _, hrun, ?_, ?_, ?_, fun hok hsettled => ?_⟩
  · split
    · exact hu.activateFound
    · exact hu
  · split <;> exact heffect.marks.trans hset
  · split <;> exact heffect.suspended.trans hsuspended
  · have hclear := hclears (Bool.and_eq_true_iff.mp hok).1
    have hsettled' : u.Settled :=
      ⟨fun t => hclear.rows t (hscene ▸ hsettled.1 t),
        fun l => hclear.values l (hscene ▸ hsettled.2 l)⟩
    split
    · exact hsettled'.activateFound
    · exact hsettled'

/-- The frame that the root refers to twice has a table of two rows. -/
def tableModel : Model :=
  { Model.twoRefs with
    tables := fun f => if f = 1 then [5] else []
    rows := fun t => if t = 5 then [30, 31] else []
    activeRow := fun _ => some 30 }

def tableStart : Instantiation where
  scene :=
    { model := tableModel
      currRow := fun _ => none
      currParent := fun _ => none
      loopState := fun _ => { currValue := none, n := 0, active := 0, initialized := false } }
  iterations _ := 0
  foundRow _ := none
  loopFound _ := -1
  found := 0
  searchSuspended := 0
  frameSet _ := false
  error := none
  log := []

/-- One vector of each frame matches. -/
def oneMatch : ItemOracle where
  frame _ _ _ := 0
  vecs _ _ := (1, none)
  obj _ _ := (0, true)
  loopFrom _ _ := none
  loopTo _ _ := none

theorem tableModel_frames : tableModel.frames = 0 :: [1] := rfl

theorem tableModel_nested : Nested tableModel fun f => 1 - f where
  refs f o ho ref href := by
    have hf : f = 0 := by
      by_contra hne
      simp [tableModel, Model.twoRefs, hne] at ho
    have href : 1 = ref := by simpa [tableModel, Model.twoRefs] using href
    subst hf href
    decide
  meas _ _ _ _ _ hmeas := by cases hmeas
  objs_frame f o ho := by
    by_contra hne
    have hf : f ≠ 0 := fun heq => hne heq.symm
    simp [tableModel, Model.twoRefs, hf] at ho
  objs_nodup f := by
    simp only [tableModel, Model.twoRefs]
    split <;> decide
  rows_nodup t := by
    simp only [tableModel]
    split <;> decide
  tables_nodup f := by
    simp only [tableModel]
    split <;> decide
  loops_nodup _ := List.nodup_nil
  tables_unique f g t hf hg := by
    have hone (f : Addr) (ht : t ∈ tableModel.tables f) : f = 1 := by
      by_contra hne
      simp [tableModel, hne] at ht
    rw [hone f hf, hone g hg]
  loops_unique _ _ _ hf _ := absurd hf List.not_mem_nil

theorem tableStart_idle : tableStart.Idle := ⟨fun _ => rfl, fun _ => rfl⟩

theorem instantiate_idle_tableStart :
    ∃ ok s', instantiate oneMatch 2 true (fun _ => true) tableStart = some (ok, s') ∧ s'.Idle ∧
      s'.frameSet = (fun _ => false) ∧ s'.searchSuspended = 0 ∧
      (ok = true → tableStart.Settled → s'.Settled) :=
  instantiate_idle (s := tableStart) tableModel_nested tableModel_frames (by decide) tableStart_idle

/-- Along the active references the frames rise in rank, up to the root. -/
theorem Accounts.le_one {m : Model} (hnested : Nested m rank) {generated : List (Addr × Bool)}
    (h : Accounts m rank root 1 generated) (g : Addr) : generated.count (g, true) ≤ 1 := by
  induction hk : rank root - rank g using Nat.strong_induction_on generalizing g with
  | _ k ih =>
  by_cases habove : rank root < rank g
  · exact (h.above g habove).trans_le (Nat.zero_le _)
  have hparent : parentCount m g generated ≤ if g = root then 0 else 1 := by
    unfold parentCount
    split
    · exact Nat.zero_le _
    next o _ =>
    split
    next hrefers =>
      have hlt := hnested.refs _ o hrefers.2 g hrefers.1
      by_cases hout : rank root < rank (m.obj o).frame
      · exact (h.above _ hout).trans_le (Nat.zero_le _)
      · have hne : g ≠ root := by
          rintro rfl
          exact hout hlt
        rw [if_neg hne]
        exact ih _ (by omega) _ rfl
    · exact Nat.zero_le _
  have hle := h.le g
  by_cases hg : g = root
  · rw [if_pos hg] at hle hparent
    omega
  · rw [if_neg hg] at hle hparent
    omega

/-- **One instance of a frame at most is generated as the active one.** -/
theorem instantiate_active_once (hnested : Nested s.model rank)
    (hframes : s.model.frames = root :: frames) (hdepth : rank root < depth) (hidle : s.Idle)
    (hrun : instantiate items depth searching finish s = some (ok, s')) (f : Addr) :
    s'.log.count (f, true) ≤ 1 := by
  obtain ⟨start, ok, u, -, -, -, -, hrun', -, -, haccounts⟩ :=
    exists_generateFrame items searching finish hnested hframes hdepth hidle
  obtain ⟨-, rfl⟩ := Prod.ext_iff.mp (Option.some.inj (hrun'.symm.trans hrun))
  dsimp only
  split <;> exact haccounts.le_one hnested f

theorem instantiate_active_once_tableStart :
    ∃ s', instantiate oneMatch 2 true (fun _ => true) tableStart = some (true, s') ∧
      s'.log = [(0, true), (1, true), (1, false), (1, false), (1, false)] ∧
      s'.log.count (1, true) ≤ 1 := by
  have hlog : (instantiate oneMatch 2 true (fun _ => true) tableStart).map
      (fun result => (result.1, result.2.log)) =
      some (true, [(0, true), (1, true), (1, false), (1, false), (1, false)]) := by decide +kernel
  obtain ⟨⟨ok, s'⟩, hrun, heq⟩ := Option.map_eq_some_iff.mp hlog
  obtain ⟨rfl, hlog⟩ := Prod.ext_iff.mp heq
  exact ⟨s', hrun, hlog, instantiate_active_once (s := tableStart) tableModel_nested
    tableModel_frames (by decide) tableStart_idle hrun 1⟩

/-- **What has been found at the active choice stays found there**, through all that is generated
for a frame, and nothing is found while the search is suspended. -/
theorem generateFrame_found {m : Model} {choice : Addr → ℤ} {f : Addr}
    {parent frameRef : Option Addr} {active : Bool} (hnested : Nested m rank)
    (hdepth : rank f < depth)
    (hready : Ready m choice (framesBelow rank (rank f + 1)) (loopsBelow m rank (rank f + 1)) s)
    (hrun : generateFrame items depth f parent frameRef active s = some (ok, s')) :
    (∀ t, s.foundRow t = m.activeRow t → s'.foundRow t = m.activeRow t) ∧
      (∀ l, s.loopFound l = choice l → s'.loopFound l = choice l) ∧
      (s.searchSuspended ≠ 0 → s'.found = s.found) := by
  obtain ⟨ok', u, generated, hrun', heffect, -⟩ :=
    generateFrame_runs hnested depth hdepth parent frameRef active s hready
  obtain ⟨-, rfl⟩ := Prod.ext_iff.mp (Option.some.inj (hrun'.symm.trans hrun))
  refine ⟨fun t ht => (heffect.rowsStay t ?_).trans ht,
    fun l hl => (heffect.loopsStay l ?_).trans hl, heffect.frozen⟩
  · rw [ht, hready.model]
  · rw [hl, hready.choices]

def foundStart : Instantiation := { tableStart with foundRow := fun _ => some 30 }

theorem generateFrame_found_foundStart :
    ∃ s', generateFrame oneMatch 2 0 none none true foundStart = some (true, s') ∧ s'.found = 1 ∧
      s'.foundRow 5 = tableModel.activeRow 5 := by
  have hready : Ready tableModel (fun _ => 0) (framesBelow (fun f => 1 - f) 2)
      (loopsBelow tableModel (fun f => 1 - f) 2) foundStart :=
    ⟨rfl, fun _ => rfl, fun _ _ => ⟨rfl, rfl⟩, fun _ _ => rfl⟩
  have hfound : (generateFrame oneMatch 2 0 none none true foundStart).map
      (fun result => (result.1, result.2.found)) = some (true, 1) := by decide +kernel
  obtain ⟨⟨ok, s'⟩, hrun, heq⟩ := Option.map_eq_some_iff.mp hfound
  obtain ⟨rfl, hfound⟩ := Prod.ext_iff.mp heq
  exact ⟨s', hrun, hfound,
    (generateFrame_found tableModel_nested Nat.one_lt_two hready hrun).1 5 rfl⟩

end Whole

end Openmoko.Fped.Obj
