import Mathlib.Data.List.Nodup
import Openmoko.Phonekit.Network

/-!
# Retry timers

As long as no timer runs out of tries, the ids are those of the timers that are alive. A callback
that returns `FALSE` for the last try leaves the id of a timer that is dead.
-/

namespace Openmoko.Phonekit

structure RetryTimers.Sound (t : RetryTimers) : Prop where
  alive : ∀ r, t.retry r ≠ 0 ↔ (t.retry r, r) ∈ t.sources
  atMostOne : (t.sources.map Prod.snd).Nodup
  noCritical : t.criticals = 0

def TriesAgain (s : Network) : NetworkEvent → Prop
  | .registered type lac =>
    type = GSMD_NETREG_UNREG → s.registered ≠ type →
      (∃ id, (id, .register) ∈ (onNetworkRegistered s type lac).1.timers.sources) ∧
        ((∀ id, (id, .register) ∉ s.timers.sources) →
          .netregRegister ∈ (onNetworkRegistered s type lac).2)
  | _ => True

def RetriesRight (s : Network) (e : NetworkEvent) : Prop :=
  (networkStep s e).1.timers.Sound ∧ TriesAgain s e

def triesLeft (s : Network) : NetworkEvent → Prop
  | .timeout id => ∀ r, (id, r) ∈ s.timers.sources → s.timers.retryN r ≠ 1
  | _ => True

structure RetryTimers.Timely (t : RetryTimers) : Prop extends t.Sound where
  own : ∀ id r, (id, r) ∈ t.sources → id = t.retry r
  fresh : ∀ r, t.retry r < t.nextId
  distinct : ∀ r r', t.retry r ≠ 0 → t.retry r = t.retry r' → r = r'
  tries : ∀ r, 1 ≤ t.retryN r

variable {id : ℕ}

section Timers

variable {t : RetryTimers} {r : Retry}

theorem RetryTimers.Timely.mem_iff (h : t.Timely) (id : ℕ) :
    (id, r) ∈ t.sources ↔ id = t.retry r ∧ t.retry r ≠ 0 := by
  constructor
  · intro hmem
    have hid := h.own id r hmem
    exact ⟨hid, (h.alive r).mpr (hid ▸ hmem)⟩
  · rintro ⟨rfl, hne⟩
    exact (h.alive r).mp hne

theorem gTimeoutAdd_retry (t : RetryTimers) (r : Retry) : (gTimeoutAdd t r).retry r = t.nextId :=
  Function.update_self _ _ _

theorem RetryTimers.Timely.gTimeoutAdd (h : t.Timely) (hzero : t.retry r = 0) :
    (gTimeoutAdd t r).Timely := by
  have hpos := h.fresh r
  have hnone : ∀ id, (id, r) ∉ t.sources := fun id hmem => ((h.mem_iff id).mp hmem).2 hzero
  have hmem : ∀ id r', (id, r') ∈ t.sources ++ [(t.nextId, r)] ↔
      (id = t.retry r' ∧ t.retry r' ≠ 0) ∨ (id = t.nextId ∧ r' = r) := by
    intro id r'
    rw [List.mem_append, h.mem_iff, List.mem_singleton, Prod.mk.injEq]
  constructor
  · constructor
    · intro r'
      simp only [Phonekit.gTimeoutAdd, hmem]
      by_cases hr : r' = r
      · subst hr
        rw [Function.update_self]
        exact ⟨fun _ => Or.inr ⟨rfl, rfl⟩, fun _ => by omega⟩
      · rw [Function.update_of_ne hr]
        exact ⟨fun hne => Or.inl ⟨rfl, hne⟩, fun hor => hor.elim And.right fun h => absurd h.2 hr⟩
    · simp only [Phonekit.gTimeoutAdd, List.map_append, List.map_cons, List.map_nil]
      rw [List.nodup_append]
      refine ⟨h.atMostOne, List.nodup_singleton r, ?_⟩
      rintro r' hr' r'' hr'' rfl
      obtain ⟨⟨id, r''⟩, hin, hsnd⟩ := List.mem_map.mp hr'
      rw [← List.mem_singleton.mp hr'', ← hsnd] at hnone
      exact hnone id hin
    · exact h.noCritical
  · intro id r' hin
    simp only [Phonekit.gTimeoutAdd] at hin ⊢
    rcases (hmem id r').mp hin with ⟨rfl, hne⟩ | ⟨rfl, rfl⟩
    · have hr : r' ≠ r := by
        rintro rfl
        exact hne hzero
      rw [Function.update_of_ne hr]
    · rw [Function.update_self]
  · intro r'
    have hlt := h.fresh r'
    simp only [Phonekit.gTimeoutAdd, Function.update_apply]
    split_ifs <;> omega
  · intro r₁ r₂ hne heq
    have hlt₁ := h.fresh r₁
    have hlt₂ := h.fresh r₂
    simp only [Phonekit.gTimeoutAdd, Function.update_apply] at hne heq
    split_ifs at hne heq with h₁ h₂ h₂
    · rw [h₁, h₂]
    · omega
    · omega
    · exact h.distinct r₁ r₂ hne heq
  · exact h.tries

theorem RetryTimers.Timely.stopRetry (h : t.Timely) (r : Retry) : (stopRetry t r).Timely := by
  unfold Phonekit.stopRetry
  split_ifs with hne
  · have hin : t.retry r ∈ t.sources.map Prod.fst :=
      List.mem_map.mpr ⟨_, (h.alive r).mp hne, rfl⟩
    have hmem : ∀ id r', (id, r') ∈ t.sources.filter (·.1 ≠ t.retry r) ↔
        id = t.retry r' ∧ t.retry r' ≠ 0 ∧ r' ≠ r := by
      intro id r'
      rw [List.mem_filter, h.mem_iff, decide_eq_true_iff]
      constructor
      · rintro ⟨⟨rfl, hne'⟩, hid⟩
        exact ⟨rfl, hne', fun hr => hid (by rw [hr])⟩
      · rintro ⟨rfl, hne', hr⟩
        exact ⟨⟨rfl, hne'⟩, fun hid => hr (h.distinct _ _ hne' hid)⟩
    simp only [gSourceRemove, if_pos hin]
    constructor
    · constructor
      · intro r'
        simp only [hmem, Function.update_apply]
        split_ifs with hr
        · exact ⟨fun hfalse => absurd rfl hfalse, fun hand => absurd hr hand.2.2⟩
        · exact ⟨fun hne' => ⟨rfl, hne', hr⟩, fun hand => hand.2.1⟩
      · exact h.atMostOne.sublist (List.filter_sublist.map _)
      · exact h.noCritical
    · intro id r' hin'
      obtain ⟨rfl, -, hr⟩ := (hmem id r').mp hin'
      exact (Function.update_of_ne hr _ _).symm
    · intro r'
      have hlt := h.fresh r'
      simp only [Function.update_apply]
      split_ifs <;> omega
    · intro r₁ r₂ hne' heq
      simp only [Function.update_apply] at hne' heq
      split_ifs at hne' heq with h₁ h₂
      · exact absurd rfl hne'
      · exact absurd rfl hne'
      · exact absurd heq hne'
      · exact h.distinct r₁ r₂ hne' heq
    · exact h.tries
  · exact h

theorem stopRetry_retry (t : RetryTimers) (r : Retry) :
    (stopRetry t r).retry = Function.update t.retry r 0 := by
  unfold stopRetry gSourceRemove
  by_cases hne : t.retry r = 0
  · rw [if_neg (not_not.mpr hne), ← hne, Function.update_eq_self]
  · rw [if_pos hne]
    split_ifs <;> rfl

theorem stopRetry_retryN (t : RetryTimers) (r : Retry) : (stopRetry t r).retryN = t.retryN := by
  unfold stopRetry gSourceRemove
  split_ifs <;> rfl

theorem RetryTimers.Timely.stopRetrying (h : t.Timely) : (stopRetrying t).Timely :=
  ((h.stopRetry _).stopRetry _).stopRetry _

theorem stopRetrying_retry (t : RetryTimers) (r : Retry) :
    (stopRetrying t).retry r = if r = .register then t.retry r else 0 := by
  rw [stopRetrying, stopRetry_retry, stopRetry_retry, stopRetry_retry]
  cases r <;> rfl

theorem RetryTimers.Timely.retryN (h : t.Timely) {retryN : Retry → ℤ} (hn : ∀ r, 1 ≤ retryN r) :
    { t with retryN := retryN }.Timely :=
  ⟨⟨h.alive, h.atMostOne, h.noCritical⟩, h.own, h.fresh, h.distinct, hn⟩

theorem RetryTimers.Timely.stopRetryReset (h : t.Timely) (r : Retry) :
    (stopRetryReset t r).Timely := by
  unfold Phonekit.stopRetryReset
  split_ifs
  · apply (h.stopRetry r).retryN
    intro r'
    rw [Function.update_apply, stopRetry_retryN]
    split_ifs
    · decide
    · exact h.tries r'
  · exact h

theorem RetryTimers.Timely.startRetry (h : t.Timely) (hzero : t.retry r = 0) :
    (startRetry t r).Timely := by
  unfold Phonekit.startRetry
  split_ifs
  · exact h.gTimeoutAdd hzero
  · exact h

theorem startRetry_retry_of_ne {r' : Retry} (hr : r' ≠ r) :
    (startRetry t r).retry r' = t.retry r' := by
  unfold startRetry gTimeoutAdd
  split_ifs
  · exact Function.update_of_ne hr _ _
  · rfl

theorem RetryTimers.Timely.retryCallback (h : t.Timely) (hn : t.retryN r ≠ 1) :
    (retryCallback t id r).Timely := by
  have hpos := h.tries r
  unfold Phonekit.retryCallback
  simp only [Function.update_self]
  rw [if_pos (by omega)]
  apply h.retryN
  intro r'
  rw [Function.update_apply]
  split_ifs
  · omega
  · exact h.tries r'

theorem retryCallback_last (h : t.Timely) (hmem : (id, r) ∈ t.sources)
    (hn : t.retryN r = 1) : ¬(retryCallback t id r).Sound := by
  intro hsound
  obtain ⟨rfl, hne⟩ := (h.mem_iff id).mp hmem
  unfold retryCallback at hsound
  simp only [Function.update_self] at hsound
  rw [if_neg (by omega)] at hsound
  have hin := (hsound.alive r).mp hne
  simp at hin

end Timers

section Events

variable {s : Network}

theorem registeredSwitch_timely (h : s.timers.Timely) (type lac : ℤ) :
    (registeredSwitch s type lac).1.timers.Timely := by
  unfold registeredSwitch
  dsimp only
  split_ifs with hunreg hretries hbusy hdenied hreg hmoved hroaming
  · exact (h.gTimeoutAdd hretries.2).stopRetrying
  · exact h.stopRetrying
  · exact h.stopRetrying
  · exact h.stopRetrying
  all_goals have hstop := h.stopRetryReset .register
  · have hall := hstop.stopRetrying
    have hoper := hall.startRetry (stopRetrying_retry _ .oper)
    have himsi := hoper.startRetry (r := .imsi)
      ((startRetry_retry_of_ne (by decide)).trans (stopRetrying_retry _ .imsi))
    exact himsi.startRetry ((startRetry_retry_of_ne (by decide)).trans
      ((startRetry_retry_of_ne (by decide)).trans (stopRetrying_retry _ .opern)))
  · have hall := hstop.stopRetrying
    have hoper := hall.startRetry (stopRetrying_retry _ .oper)
    exact hoper.startRetry
      ((startRetry_retry_of_ne (by decide)).trans (stopRetrying_retry _ .imsi))
  · exact hstop
  · exact h

@[simp]
theorem onNetworkName_timers (s : Network) (name : Option (List Byte)) :
    (onNetworkName s name).1.timers = s.timers := by
  unfold onNetworkName
  split_ifs <;> rfl

theorem onNetworkRegistered_timers (s : Network) (type lac : ℤ) :
    (onNetworkRegistered s type lac).1.timers = (registeredSwitch s type lac).1.timers := by
  unfold onNetworkRegistered
  dsimp only
  split_ifs
  · rw [onNetworkName_timers]
  · rfl
  · rfl

theorem registeredSwitch_obs (s : Network) (type lac : ℤ) :
    (registeredSwitch s type lac).2 ⊆ (onNetworkRegistered s type lac).2 := by
  unfold onNetworkRegistered
  dsimp only
  split_ifs
  · exact List.subset_append_left _ _
  · exact List.subset_append_left _ _
  · exact List.Subset.refl _

theorem triesAgain (h : s.timers.Timely) (e : NetworkEvent) : TriesAgain s e := by
  cases e with
  | registered type lac =>
    rintro rfl hchange
    have htimely := registeredSwitch_timely h GSMD_NETREG_UNREG lac
    have hobs := registeredSwitch_obs s GSMD_NETREG_UNREG lac
    rw [onNetworkRegistered_timers]
    by_cases hzero : s.timers.retry .register = 0
    · have hretries : s.registered ≠ GSMD_NETREG_UNREG ∧ s.timers.retry .register = 0 :=
        ⟨hchange, hzero⟩
      simp only [registeredSwitch, if_pos hretries, if_true] at htimely hobs ⊢
      have hid : (stopRetrying (gTimeoutAdd s.timers .register)).retry .register =
          s.timers.nextId := by
        rw [stopRetrying_retry, if_pos rfl, gTimeoutAdd_retry]
      have hpos := h.fresh .register
      exact ⟨⟨_, (htimely.alive .register).mp (by rw [hid]; omega)⟩,
        fun _ => hobs List.mem_cons_self⟩
    · have hretries : ¬(s.registered ≠ GSMD_NETREG_UNREG ∧ s.timers.retry .register = 0) :=
        fun hand => hzero hand.2
      simp only [registeredSwitch, if_neg hretries, if_true] at htimely ⊢
      refine ⟨⟨_, (htimely.alive .register).mp ?_⟩, fun hnone => ?_⟩
      · rwa [stopRetrying_retry, if_pos rfl]
      · exact absurd ((h.alive .register).mp hzero) (hnone _)
  | _ => trivial

theorem onTimeout_timers_of_mem (h : s.timers.Timely) {r : Retry}
    (hmem : (id, r) ∈ s.timers.sources) :
    (onTimeout s id).1.timers = retryCallback s.timers id r := by
  have hfind : s.timers.sources.find? (·.1 = id) = some (id, r) := by
    cases hfound : s.timers.sources.find? (·.1 = id) with
    | none =>
      have hno := List.find?_eq_none.mp hfound (id, r) hmem
      simp at hno
    | some p =>
      obtain ⟨id', r'⟩ := p
      have hid : id' = id := by simpa using List.find?_some hfound
      subst hid
      obtain ⟨hid, hne⟩ := (h.mem_iff _).mp hmem
      have hid' := h.own _ _ (List.mem_of_find?_eq_some hfound)
      rw [h.distinct r r' hne (hid.symm.trans hid')]
  rw [onTimeout, hfind]

theorem onTimeout_timers_of_dead (hdead : ∀ r, (id, r) ∉ s.timers.sources) :
    onTimeout s id = (s, []) := by
  have hfind : s.timers.sources.find? (·.1 = id) = none := by
    rw [List.find?_eq_none]
    rintro ⟨id', r⟩ hmem heq
    have hid : id' = id := decide_eq_true_iff.mp heq
    exact hdead r (hid ▸ hmem)
  rw [onTimeout, hfind]

theorem networkStep_timely (h : s.timers.Timely) {e : NetworkEvent} (hleft : triesLeft s e) :
    (networkStep s e).1.timers.Timely := by
  cases e with
  | registered type lac =>
    rw [networkStep, onNetworkRegistered_timers]
    exact registeredSwitch_timely h type lac
  | networkName oper =>
    rw [networkStep, onNetworkName_timers]
    exact h.stopRetryReset .oper
  | networkNumber oper => exact h.stopRetryReset .opern
  | imsi imsi => exact h.stopRetryReset .imsi
  | timeout id =>
    by_cases halive : ∃ r, (id, r) ∈ s.timers.sources
    · obtain ⟨r, hmem⟩ := halive
      rw [networkStep, onTimeout_timers_of_mem h hmem]
      exact h.retryCallback (hleft r hmem)
    · rw [networkStep, onTimeout_timers_of_dead fun r hmem => halive ⟨r, hmem⟩]
      exact h

theorem retriesRight_iff (h : s.timers.Timely) (e : NetworkEvent) :
    RetriesRight s e ↔ triesLeft s e := by
  constructor
  · rintro ⟨hsound, -⟩
    cases e with
    | timeout id =>
      intro r hmem hlast
      rw [networkStep, onTimeout_timers_of_mem h hmem] at hsound
      exact retryCallback_last h hmem hlast hsound
    | _ => trivial
  · intro hleft
    exact ⟨(networkStep_timely h hleft).toSound, triesAgain h e⟩

end Events

theorem networkInit_timely {nextId : ℕ} (hid : 0 < nextId) :
    (networkInit nextId).timers.Timely := by
  constructor
  · constructor
    · intro r
      exact ⟨fun hne => absurd rfl hne, fun hmem => by cases hmem⟩
    · exact List.nodup_nil
    · rfl
  · rintro id r ⟨⟩
  · exact fun r => hid
  · exact fun r r' hne => absurd rfl hne
  · exact fun r => show 1 ≤ RETRY_MAX by decide

/-- **The retry timers are kept right in every state** of exactly those runs in which none of them
fires for the last of its tries. -/
theorem network_retries_right_iff (nextId : ℕ) (hid : 0 < nextId) (events : List NetworkEvent) :
    network.Meets RetriesRight (networkInit nextId) events ↔
      network.Meets triesLeft (networkInit nextId) events :=
  network.meets_iff_of_inv (fun s => s.timers.Timely) (networkInit_timely hid)
    (fun _ e h => ⟨retriesRight_iff h e, networkStep_timely h⟩) events

def shortOutage : List NetworkEvent :=
  [.registered GSMD_NETREG_REG_HOME 7, .networkName [65], .timeout 2,
    .registered GSMD_NETREG_UNREG 0, .timeout 3]

theorem network_retries_right_shortOutage :
    network.Meets RetriesRight (networkInit 1) shortOutage := by
  refine (network_retries_right_iff 1 (by decide) shortOutage).mpr ⟨trivial, trivial, ?_, trivial,
    ?_, trivial⟩
  all_goals
    intro r _
    cases r <;> decide

def noAnswer : List NetworkEvent :=
  .registered GSMD_NETREG_REG_HOME 7 :: List.replicate 5 (.timeout 1)

/-- The fifth try is the last, and `retry_oper` keeps its id. -/
theorem not_retries_right_noAnswer : ¬network.Meets RetriesRight (networkInit 1) noAnswer := by
  rintro ⟨-, -, -, -, -, ⟨hlast, -⟩, -⟩
  have hmem := (hlast.alive .oper).mp (by decide)
  exact absurd hmem (by decide)

end Openmoko.Phonekit
