import Openmoko.Gsmd.Timer

/-!
# Timers are called when they are due

Times are compared field by field, which is right for timevals whose microseconds are below a
million, and sums are not brought into that form. As long as they happen to be in it, and no timer is
already due when the interval timer is set, each timer is called by the first run after its expiry.
-/

namespace Openmoko.Gsmd.Timers

def Timeval.Normal (tv : Timeval) : Prop := 0 ≤ tv.tvUsec ∧ tv.tvUsec < 1000000

def TimerObs.called? : TimerObs → Option ℕ
  | .called reg _ => some reg
  | _ => none

def calledRegs (log : List TimerObs) : List ℕ := log.filterMap TimerObs.called?

structure Armed (now : ℕ) (pending : List Timer) (value : Timeval) : Prop where
  sec : 0 ≤ value.tvSec
  normal : value.Normal
  positive : 0 < value.micros
  earliest : ∀ t ∈ pending, now + value.micros ≤ t.expires.micros
  exact : ∃ t ∈ pending, now + value.micros = t.expires.micros

def Punctual (before : List TimerObs) : TimerObs → Prop
  | .called reg now =>
    (∃ expiry ≤ now, .registered reg expiry ∈ before) ∧ reg ∉ calledRegs before ∧
      .unregistered reg ∉ before
  | .ran now =>
    ∀ reg, ∀ expiry ≤ now, .registered reg expiry ∈ before →
      reg ∈ calledRegs before ∨ .unregistered reg ∈ before
  | .nextExpiration now pending value =>
    pending ≠ [] → ∃ v ∈ value, Armed now pending v
  | _ => True

/-- The service of the timers: every call is of a timer that is due and was not called or taken back
before, no run leaves a due one, the others are kept, and there is always a wake-up for them. -/
structure Served (s : TimerState) (log : List TimerObs) : Prop where
  alive : s.crashed = false
  punctual : Explained Punctual log
  kept : ∀ reg, reg ∈ s.timers.map Timer.reg ↔
    (∃ expiry, .registered reg expiry ∈ log) ∧ reg ∉ calledRegs log ∧ .unregistered reg ∉ log

variable (clock : ℕ)

def AllAfter (timers : List Timer) : Prop := ∀ t ∈ timers, clock < t.expires.micros

/-- The microseconds add up to less than a million, nothing that is listed is due when the interval
timer is set, and nobody takes back the timer that the loop goes to next. -/
def timersMeet (s : TimerState) : TimerEvent → Prop
  | .register timeout _ wait wait' =>
    (0 ≤ timeout.tvUsec + (gettimeofday (s.clock + wait)).tvUsec ∧
      timeout.tvUsec + (gettimeofday (s.clock + wait)).tvUsec < 1000000) ∧
    wait' < timeout.micros ∧ AllAfter (s.clock + wait + wait') s.timers
  | .unregister reg wait =>
    reg ∈ s.timers.map Timer.reg ∧ (∀ run ∈ s.run, run.cur2 ≠ some reg) ∧
      AllAfter (s.clock + wait) (without s.timers reg)
  | .finish wait => AllAfter (s.clock + wait) s.timers
  | _ => True

theorem gettimeofday_normal : (gettimeofday clock).Normal := by
  unfold Timeval.Normal gettimeofday
  dsimp only
  omega

theorem gettimeofday_micros : (gettimeofday clock).micros = clock := by
  unfold Timeval.micros gettimeofday
  dsimp only
  omega

variable {now : Timeval} {timers : List Timer}

theorem tvLater_iff {tv : Timeval} (hnormal : tv.Normal) (hnow : now.Normal) :
    tvLater tv now = true ↔ now.micros ≤ tv.micros := by
  unfold Timeval.Normal at hnormal hnow
  unfold tvLater Timeval.micros
  by_cases hlt : tv.tvSec < now.tvSec
  · rw [if_pos hlt]
    constructor
    · intro hfalse
      cases hfalse
    · intro hle
      omega
  · rw [if_neg hlt]
    by_cases hgt : tv.tvSec > now.tvSec
    · rw [if_pos hgt]
      exact ⟨fun _ => by omega, fun _ => rfl⟩
    · rw [if_neg hgt, decide_eq_true_iff]
      omega

theorem tvBorrow_spec (sec usec : ℤ) (hupper : usec < 1000000) :
    (tvBorrow sec usec).Normal ∧
      (tvBorrow sec usec).micros = sec * 1000000 + usec := by
  fun_induction tvBorrow sec usec with
  | case1 sec usec hneg ih =>
    obtain ⟨hnormal, hmicros⟩ := ih (by omega)
    refine ⟨hnormal, ?_⟩
    rw [hmicros]
    omega
  | case2 sec usec hnonneg => exact ⟨⟨Int.not_lt.mp hnonneg, hupper⟩, rfl⟩

theorem tvSub_spec {tv : Timeval} (hnormal : tv.Normal) (hnow : now.Normal) :
    (tvSub tv now).Normal ∧ (tvSub tv now).micros = tv.micros - now.micros := by
  have hspec := tvBorrow_spec (tv.tvSec - now.tvSec) (tv.tvUsec - now.tvUsec)
    (by have := hnormal.2; have := hnow.1; omega)
  refine ⟨hspec.1, ?_⟩
  rw [tvSub, hspec.2, Timeval.micros, Timeval.micros]
  omega

theorem foldl_smaller_spec (timers : List Timer) {min res : Timeval} (hmin : min.Normal)
    (hnormal : ∀ t ∈ timers, t.expires.Normal)
    (hres : timers.foldl (fun min cur => if tvSmaller cur.expires min then cur.expires else min)
      min = res) :
    (res = min ∨ ∃ t ∈ timers, res = t.expires) ∧ res.micros ≤ min.micros ∧
      ∀ t ∈ timers, res.micros ≤ t.expires.micros := by
  induction timers generalizing min with
  | nil => exact ⟨Or.inl hres.symm, by rw [← hres]; exact Int.le_refl _, fun t ht => by cases ht⟩
  | cons cur timers ih =>
    have hcur := hnormal cur List.mem_cons_self
    have hrest := fun t ht => hnormal t (List.mem_cons_of_mem cur ht)
    have hsmaller : tvSmaller cur.expires min = true ↔ cur.expires.micros ≤ min.micros :=
      tvLater_iff hmin hcur
    rw [List.foldl_cons] at hres
    by_cases hle : cur.expires.micros ≤ min.micros
    · rw [if_pos (hsmaller.mpr hle)] at hres
      obtain ⟨hmem, hup, hall⟩ := ih hcur hrest hres
      refine ⟨Or.inr ?_, Int.le_trans hup hle, List.forall_mem_cons.mpr ⟨hup, hall⟩⟩
      rcases hmem with heq | ⟨t, ht, heq⟩
      · exact ⟨cur, List.mem_cons_self, heq⟩
      · exact ⟨t, List.mem_cons_of_mem _ ht, heq⟩
    · rw [if_neg (mt hsmaller.mp hle)] at hres
      obtain ⟨hmem, hup, hall⟩ := ih hmin hrest hres
      refine ⟨?_, hup, List.forall_mem_cons.mpr ⟨by omega, hall⟩⟩
      rcases hmem with heq | ⟨t, ht, heq⟩
      · exact Or.inl heq
      · exact Or.inr ⟨t, List.mem_cons_of_mem _ ht, heq⟩

theorem minExpires_spec (first : Timer) (timers : List Timer)
    (hnormal : ∀ t ∈ first :: timers, t.expires.Normal) :
    (∃ t ∈ first :: timers, minExpires first timers = t.expires) ∧
      ∀ t ∈ first :: timers, (minExpires first timers).micros ≤ t.expires.micros := by
  obtain ⟨hmem, -, hall⟩ :=
    foldl_smaller_spec (first :: timers) (hnormal first List.mem_cons_self) hnormal rfl
  refine ⟨?_, hall⟩
  rcases hmem with heq | hmem
  · exact ⟨first, List.mem_cons_self, heq⟩
  · exact hmem

theorem calcNextExpiration_armed {clock : ℕ}
    (hnormal : ∀ t ∈ timers, t.expires.Normal) (hafter : AllAfter clock timers)
    (hne : timers ≠ []) :
    ∃ v ∈ calcNextExpiration (gettimeofday clock) timers, Armed clock timers v := by
  obtain ⟨first, rest, rfl⟩ := List.exists_cons_of_ne_nil hne
  obtain ⟨⟨t, ht, heq⟩, hmin⟩ := minExpires_spec first rest hnormal
  have hsub := tvSub_spec (hnormal t ht) (gettimeofday_normal clock)
  rw [← heq, gettimeofday_micros] at hsub
  have hlater := hafter t ht
  rw [← heq] at hlater
  refine ⟨_, rfl, ?_⟩
  obtain ⟨hnorm, hmicros⟩ := hsub
  constructor
  · unfold Timeval.Normal at hnorm
    rw [Timeval.micros] at hmicros
    omega
  · exact hnorm
  · omega
  · intro t' ht'
    have hle := hmin t' ht'
    omega
  · exact ⟨t, ht, by rw [hmicros, ← heq]; omega⟩

/-! ### The invariant -/

def InLoop (s : TimerState) (run : CheckNRun) : Prop :=
  (∃ clock ≤ s.clock, run.now = gettimeofday clock) ∧
    ∃ visited rest, s.timers = visited ++ rest ∧ run.cur2 = rest.head?.map Timer.reg ∧
      ∀ t ∈ visited, run.now.micros < t.expires.micros

structure Serving (s : TimerState) (log : List TimerObs) : Prop extends Served s log where
  normal : ∀ t ∈ s.timers, t.expires.Normal
  listed : ∀ t ∈ s.timers, .registered t.reg t.expires.micros ∈ log
  nodup : (s.timers.map Timer.reg).Nodup
  fresh : ∀ reg expiry, .registered reg expiry ∈ log → reg < s.next
  told : ∀ reg, reg ∈ calledRegs log ∨ .unregistered reg ∈ log → reg < s.next
  unique : ∀ reg expiry expiry', .registered reg expiry ∈ log → .registered reg expiry' ∈ log →
    expiry = expiry'
  running : ∀ run ∈ s.run, InLoop s run

section Steps

variable {s : TimerState} {log : List TimerObs}

@[simp]
theorem calledRegs_append (log obs : List TimerObs) :
    calledRegs (log ++ obs) = calledRegs log ++ calledRegs obs :=
  List.filterMap_append

@[simp]
theorem calledRegs_called (reg : ℕ) (now : ℤ) (log : List TimerObs) :
    calledRegs (.called reg now :: log) = reg :: calledRegs log := rfl

@[simp]
theorem calledRegs_registered (reg : ℕ) (expiry : ℤ) (log : List TimerObs) :
    calledRegs (.registered reg expiry :: log) = calledRegs log := rfl

@[simp]
theorem calledRegs_unregistered (reg : ℕ) (log : List TimerObs) :
    calledRegs (.unregistered reg :: log) = calledRegs log := rfl

@[simp]
theorem calledRegs_ran (now : ℤ) (log : List TimerObs) :
    calledRegs (.ran now :: log) = calledRegs log := rfl

@[simp]
theorem calledRegs_nextExpiration (now : ℕ) (pending : List Timer) (value : Option Timeval)
    (log : List TimerObs) :
    calledRegs (.nextExpiration now pending value :: log) = calledRegs log := rfl

@[simp]
theorem calledRegs_nil : calledRegs [] = [] := rfl

theorem mem_without {reg : ℕ} {t : Timer} : t ∈ without timers reg ↔ t ∈ timers ∧ t.reg ≠ reg := by
  simp [without]

theorem map_without (timers : List Timer) (reg : ℕ) :
    (without timers reg).map Timer.reg = (timers.map Timer.reg).filter fun r => r ≠ reg := by
  rw [without, List.filter_map]
  rfl

theorem punctual_nextExpiration {before : List TimerObs} {clock : ℕ}
    (hnormal : ∀ t ∈ timers, t.expires.Normal) (hafter : AllAfter clock timers) :
    Punctual before
      (.nextExpiration clock timers (calcNextExpiration (gettimeofday clock) timers)) :=
  calcNextExpiration_armed hnormal hafter

theorem Serving.fresh_append (hinv : Serving s log) {obs : List TimerObs}
    (hobs : ∀ reg expiry, .registered reg expiry ∉ obs) :
    ∀ reg expiry, .registered reg expiry ∈ log ++ obs → reg < s.next := by
  intro reg expiry hreg
  exact hinv.fresh reg expiry ((List.mem_append.mp hreg).resolve_right (hobs reg expiry))

theorem Serving.unique_append (hinv : Serving s log) {obs : List TimerObs}
    (hobs : ∀ reg expiry, .registered reg expiry ∉ obs) :
    ∀ reg expiry expiry', .registered reg expiry ∈ log ++ obs →
      .registered reg expiry' ∈ log ++ obs → expiry = expiry' := by
  intro reg expiry expiry' hreg hreg'
  exact hinv.unique reg expiry expiry'
    ((List.mem_append.mp hreg).resolve_right (hobs reg expiry))
    ((List.mem_append.mp hreg').resolve_right (hobs reg expiry'))

variable {wait : ℕ}

/-- A timer that is added while the loop runs comes behind what the loop has yet to visit. -/
theorem InLoop.append {run : CheckNRun} {new : Timer} {clock next : ℕ} (hrun : InLoop s run)
    (hle : s.clock ≤ clock) (hlate : clock < new.expires.micros) :
    InLoop { s with timers := s.timers ++ [new], clock := clock, next := next } run := by
  obtain ⟨⟨start, hstart, hnow⟩, visited, rest, htimers, hcur, hvisited⟩ := hrun
  refine ⟨⟨start, Nat.le_trans hstart hle, hnow⟩, ?_⟩
  cases rest with
  | nil =>
    rw [List.append_nil] at htimers
    refine ⟨s.timers ++ [new], [], (List.append_nil _).symm, hcur,
      List.forall_mem_append.mpr ⟨htimers ▸ hvisited, List.forall_mem_singleton.mpr ?_⟩⟩
    rw [hnow, gettimeofday_micros]
    omega
  | cons cur rest =>
    refine ⟨visited, cur :: rest ++ [new], ?_, hcur, hvisited⟩
    rw [← List.append_assoc, ← htimers]

theorem mem_registered {reg reg' now : ℕ} {expiry expiry' : ℤ} {value : Option Timeval} :
    .registered reg expiry ∈ log ++ [.registered reg' expiry', .nextExpiration now timers value] ↔
      .registered reg expiry ∈ log ∨ reg = reg' ∧ expiry = expiry' := by
  simp

theorem Serving.kept_add (hinv : Serving s log) (reg : ℕ) :
    reg ∈ s.timers.map Timer.reg ∨ reg = s.next ↔
      ((∃ expiry, .registered reg expiry ∈ log) ∨ reg = s.next) ∧
        reg ∉ calledRegs log ∧ .unregistered reg ∉ log := by
  rw [hinv.kept reg]
  by_cases heq : reg = s.next
  · subst heq
    have hcalled : s.next ∉ calledRegs log := fun hmem =>
      Nat.lt_irrefl _ (hinv.told _ (Or.inl hmem))
    have huntold : .unregistered s.next ∉ log := fun hmem =>
      Nat.lt_irrefl _ (hinv.told _ (Or.inr hmem))
    simp [hcalled, huntold]
  · simp [heq]

theorem serving_add {new : Timer} {clock : ℕ} (hinv : Serving s log) (hreg : new.reg = s.next)
    (hle : s.clock ≤ clock) (hnormal : new.expires.Normal) (hlate : clock < new.expires.micros)
    (hafter : AllAfter clock s.timers) :
    Serving { s with timers := s.timers ++ [new], clock := clock, next := s.next + 1 }
      (log ++ [.registered s.next new.expires.micros, .nextExpiration clock (s.timers ++ [new])
        (calcNextExpiration (gettimeofday clock) (s.timers ++ [new]))]) := by
  have hall : ∀ {p : Timer → Prop}, (∀ t ∈ s.timers, p t) → p new → ∀ t ∈ s.timers ++ [new], p t :=
    fun hold hnew => List.forall_mem_append.mpr ⟨hold, List.forall_mem_singleton.mpr hnew⟩
  refine
    { alive := hinv.alive
      punctual := ?_
      kept := ?_
      normal := hall hinv.normal hnormal
      listed := hall (fun t ht => List.mem_append_left _ (hinv.listed t ht)) (by simp [hreg])
      nodup := ?_
      fresh := ?_
      told := ?_
      unique := ?_
      running := fun run hrun => (hinv.running run hrun).append hle hlate }
  · rw [explained_append, explained_cons, explained_singleton]
    exact ⟨hinv.punctual, trivial,
      punctual_nextExpiration (hall hinv.normal hnormal) (hall hafter hlate)⟩
  · intro reg
    have hkept := hinv.kept_add reg
    simpa [hreg, exists_or] using hkept
  · rw [List.map_append, List.nodup_append]
    refine ⟨hinv.nodup, List.pairwise_singleton _ _, fun r hr r' hr' heq => ?_⟩
    obtain ⟨⟨expiry, hold⟩, -⟩ := (hinv.kept r).mp hr
    rw [heq, List.mem_singleton.mp hr', hreg] at hold
    exact Nat.lt_irrefl _ (hinv.fresh _ _ hold)
  · intro reg expiry hmem
    rcases mem_registered.mp hmem with hold | ⟨rfl, -⟩
    · exact Nat.lt_succ_of_lt (hinv.fresh reg expiry hold)
    · exact Nat.lt_succ_self _
  · intro reg hmem
    exact Nat.lt_succ_of_lt (hinv.told reg (by simpa using hmem))
  · intro reg expiry expiry' hmem hmem'
    rcases mem_registered.mp hmem with hold | ⟨rfl, rfl⟩ <;>
      rcases mem_registered.mp hmem' with hold' | ⟨heq, rfl⟩
    · exact hinv.unique reg expiry expiry' hold hold'
    · exact absurd (hinv.fresh _ _ hold) (by omega)
    · exact absurd (hinv.fresh _ _ hold') (Nat.lt_irrefl _)
    · rfl

theorem serving_register {timeout : Timeval} {wait' : ℕ} (hinv : Serving s log)
    (hnormal : 0 ≤ timeout.tvUsec + (gettimeofday (s.clock + wait)).tvUsec ∧
      timeout.tvUsec + (gettimeofday (s.clock + wait)).tvUsec < 1000000)
    (hpositive : wait' < timeout.micros) (hafter : AllAfter (s.clock + wait + wait') s.timers) :
    Serving (gsmdTimerRegister s timeout wait wait').1
      (log ++ (gsmdTimerRegister s timeout wait wait').2) := by
  have htime := gettimeofday_micros (s.clock + wait)
  set tv := gettimeofday (s.clock + wait) with htv
  set new : Timer := { reg := s.next, expires :=
    { tvSec := timeout.tvSec + tv.tvSec, tvUsec := timeout.tvUsec + tv.tvUsec } } with hnew
  have hexpiry : new.expires.micros = (s.clock + wait : ℕ) + timeout.micros := by
    rw [← htime, hnew]
    unfold Timeval.micros
    dsimp only
    omega
  have hadd := serving_add hinv (rfl : new.reg = s.next) (by omega : s.clock ≤ s.clock + wait + wait')
    hnormal (by rw [hexpiry]; omega) hafter
  rw [hexpiry] at hadd
  exact hadd

theorem serving_unregister {reg : ℕ} (hinv : Serving s log)
    (hmem : reg ∈ s.timers.map Timer.reg) (hnext : ∀ run ∈ s.run, run.cur2 ≠ some reg)
    (hafter : AllAfter (s.clock + wait) (without s.timers reg)) :
    Serving (gsmdTimerUnregister s reg wait).1 (log ++ (gsmdTimerUnregister s reg wait).2) := by
  have hnormal : ∀ t ∈ without s.timers reg, t.expires.Normal := fun t ht =>
    hinv.normal t (mem_without.mp ht).1
  have hstep : gsmdTimerUnregister s reg wait =
      ({ s with timers := without s.timers reg, clock := s.clock + wait },
        [.unregistered reg, .nextExpiration (s.clock + wait) (without s.timers reg)
          (calcNextExpiration (gettimeofday (s.clock + wait)) (without s.timers reg))]) := by
    rw [gsmdTimerUnregister, if_pos hmem]
    rfl
  rw [hstep]
  refine
    { alive := hinv.alive
      punctual := ?_
      kept := ?_
      normal := hnormal
      listed := ?_
      nodup := ?_
      fresh := ?_
      told := ?_
      unique := ?_
      running := ?_ }
  · rw [explained_append]
    refine ⟨hinv.punctual, ?_⟩
    rw [explained_cons, explained_singleton]
    exact ⟨trivial, punctual_nextExpiration hnormal hafter⟩
  · intro r
    have hkept := hinv.kept r
    rw [map_without, List.mem_filter, hkept]
    by_cases heq : r = reg
    · simp [heq]
    · simp [heq]
  · intro t ht
    exact List.mem_append_left _ (hinv.listed t (mem_without.mp ht).1)
  · rw [map_without]
    exact hinv.nodup.filter _
  · exact hinv.fresh_append (by simp)
  · intro r htold
    simp only [calledRegs_append, calledRegs_unregistered, calledRegs_nextExpiration,
      calledRegs_nil, List.append_nil, List.mem_append, List.mem_cons, TimerObs.unregistered.injEq,
      reduceCtorEq, List.not_mem_nil, or_false] at htold
    rcases htold with hcalled | hunreg | rfl
    · exact hinv.told r (Or.inl hcalled)
    · exact hinv.told r (Or.inr hunreg)
    · obtain ⟨⟨expiry, hreg⟩, -⟩ := (hinv.kept r).mp hmem
      exact hinv.fresh r expiry hreg
  · exact hinv.unique_append (by simp)
  · intro run hrun
    obtain ⟨⟨clock, hle, hnow⟩, visited, rest, htimers, hcur, hvisited⟩ := hinv.running run hrun
    refine ⟨⟨clock, by dsimp only; omega, hnow⟩, without visited reg, without rest reg, ?_, ?_, ?_⟩
    · dsimp only
      rw [htimers, without, List.filter_append]
      rfl
    · cases rest with
      | nil => exact hcur
      | cons cur rest =>
        have hkeep : cur.reg ≠ reg := by
          rintro rfl
          exact hnext run hrun hcur
        rw [without, List.filter_cons_of_pos (by simpa using hkeep)]
        exact hcur
    · exact fun t ht => hvisited t (mem_without.mp ht).1

theorem serving_checkNRun (hinv : Serving s log) : Serving { s with
      clock := s.clock + wait
      run := some
        { now := gettimeofday (s.clock + wait), cur2 := s.timers.head?.map Timer.reg } } log := by
  refine { hinv with running := fun run hrun => ?_ }
  obtain rfl := Option.some.inj hrun
  exact ⟨⟨_, Nat.le_refl _, rfl⟩, [], s.timers, rfl, rfl, fun t ht => by cases ht⟩

theorem serving_finish (hinv : Serving s log)
    (hrun : s.run = some ⟨now, none⟩) (hafter : AllAfter (s.clock + wait) s.timers) :
    Serving { s with run := none, clock := s.clock + wait }
      (log ++ [.ran now.micros, .nextExpiration (s.clock + wait) s.timers
        (calcNextExpiration (gettimeofday (s.clock + wait)) s.timers)]) := by
  obtain ⟨-, visited, rest, htimers, hcur, hvisited⟩ := hinv.running _ hrun
  have hnil : rest = [] := by
    cases rest with
    | nil => rfl
    | cons cur rest => cases hcur
  rw [hnil, List.append_nil] at htimers
  refine
    { alive := hinv.alive
      punctual := ?_
      kept := ?_
      normal := hinv.normal
      listed := ?_
      nodup := hinv.nodup
      fresh := ?_
      told := ?_
      unique := ?_
      running := ?_ }
  · rw [explained_append]
    refine ⟨hinv.punctual, ?_⟩
    rw [explained_cons, explained_singleton]
    refine ⟨?_, punctual_nextExpiration hinv.normal hafter⟩
    -- what is due and neither called nor taken back would have been visited in vain
    intro reg expiry hdue hreg
    rw [List.append_nil] at hreg ⊢
    by_contra hleft
    rw [not_or] at hleft
    obtain ⟨t, ht, rfl⟩ := List.mem_map.mp ((hinv.kept reg).mpr ⟨⟨expiry, hreg⟩, hleft⟩)
    have hexpiry := hinv.unique _ _ _ hreg (hinv.listed t ht)
    have hlater := hvisited t (htimers ▸ ht)
    dsimp only at hlater
    omega
  · intro r
    rw [hinv.kept r]
    simp
  · exact fun t ht => List.mem_append_left _ (hinv.listed t ht)
  · exact hinv.fresh_append (by simp)
  · intro r htold
    simp only [calledRegs_append, calledRegs_ran, calledRegs_nextExpiration, calledRegs_nil,
      List.append_nil, List.mem_append, List.mem_cons, reduceCtorEq, List.not_mem_nil,
      or_false] at htold
    exact hinv.told r htold
  · exact hinv.unique_append (by simp)
  · intro run hnone
    cases hnone

theorem fromReg_append {visited rest : List Timer} {cur : Timer}
    (hnodup : ((visited ++ cur :: rest).map Timer.reg).Nodup) :
    fromReg (visited ++ cur :: rest) cur.reg = cur :: rest := by
  rw [List.map_append, List.map_cons, List.nodup_append] at hnodup
  rw [fromReg, List.dropWhile_append_of_pos]
  · rw [List.dropWhile_cons_of_neg (by simp)]
  · intro t ht
    have hne := hnodup.2.2 t.reg (List.mem_map_of_mem ht) cur.reg List.mem_cons_self
    simpa using hne

theorem without_append {visited rest : List Timer} {cur : Timer}
    (hnodup : ((visited ++ cur :: rest).map Timer.reg).Nodup) :
    without (visited ++ cur :: rest) cur.reg = visited ++ rest := by
  rw [List.map_append, List.map_cons, List.nodup_append, List.nodup_cons] at hnodup
  obtain ⟨-, ⟨hrest, -⟩, hvisited⟩ := hnodup
  rw [without, List.filter_append, List.filter_cons_of_neg (by simp)]
  congr 1
  · rw [List.filter_eq_self]
    intro t ht
    have hne := hvisited t.reg (List.mem_map_of_mem ht) cur.reg List.mem_cons_self
    simpa using hne
  · rw [List.filter_eq_self]
    intro t ht
    have hne : t.reg ≠ cur.reg := fun heq => hrest (heq ▸ List.mem_map_of_mem ht)
    simpa using hne

theorem serving_turn {reg : ℕ} (hinv : Serving s log) (hrun : s.run = some ⟨now, some reg⟩) :
    Serving (runTurn s now reg).1 (log ++ (runTurn s now reg).2) := by
  obtain ⟨⟨clock, hle, hnow⟩, visited, rest, htimers, hcur, hvisited⟩ := hinv.running _ hrun
  dsimp only at hnow hcur hvisited
  cases rest with
  | nil => cases hcur
  | cons cur rest =>
    obtain rfl := Option.some.inj hcur
    have hnodup := hinv.nodup
    rw [htimers] at hnodup
    have hmem : cur ∈ s.timers := htimers ▸ List.mem_append_right _ List.mem_cons_self
    have hlater : tvLater now cur.expires = true ↔ cur.expires.micros ≤ now.micros :=
      tvLater_iff (hnow ▸ gettimeofday_normal clock) (hinv.normal cur hmem)
    rw [runTurn, htimers, fromReg_append hnodup]
    dsimp only
    by_cases hdue : cur.expires.micros ≤ now.micros
    · rw [if_pos (hlater.mpr hdue), without_append hnodup]
      dsimp only
      have hsub : ∀ t ∈ visited ++ rest, t ∈ s.timers := by
        intro t ht
        rw [htimers]
        exact (List.mem_append.mp ht).elim (List.mem_append_left _)
          fun hr => List.mem_append_right _ (List.mem_cons_of_mem _ hr)
      have hregs : ∀ r, r ∈ (visited ++ rest).map Timer.reg ↔
          r ∈ s.timers.map Timer.reg ∧ r ≠ cur.reg := by
        intro r
        rw [← without_append hnodup, map_without, List.mem_filter, htimers]
        simp
      obtain ⟨⟨expiry, hreg⟩, hcalled, huntold⟩ :=
        (hinv.kept cur.reg).mp (List.mem_map_of_mem hmem)
      have hexpiry := hinv.unique _ _ _ hreg (hinv.listed cur hmem)
      refine
        { alive := hinv.alive
          punctual := ?_
          kept := ?_
          normal := fun t ht => hinv.normal t (hsub t ht)
          listed := fun t ht => List.mem_append_left _ (hinv.listed t (hsub t ht))
          nodup := ?_
          fresh := ?_
          told := ?_
          unique := ?_
          running := ?_ }
      · rw [explained_append, explained_singleton, List.append_nil]
        exact ⟨hinv.punctual, ⟨expiry, by omega, hreg⟩, hcalled, huntold⟩
      · intro r
        rw [hregs, hinv.kept r]
        simp only [calledRegs_append, calledRegs_called, calledRegs_nil, List.mem_append,
          List.mem_cons, reduceCtorEq, List.not_mem_nil, or_false, not_or, ne_eq]
        grind
      · rw [← without_append hnodup, map_without]
        exact hnodup.filter _
      · exact hinv.fresh_append (by simp)
      · intro r htold
        simp only [calledRegs_append, calledRegs_called, calledRegs_nil, List.mem_append,
          List.mem_cons, reduceCtorEq, List.not_mem_nil, or_false] at htold
        rcases htold with (hold | rfl) | hunreg
        · exact hinv.told r (Or.inl hold)
        · exact hinv.fresh _ _ hreg
        · exact hinv.told r (Or.inr hunreg)
      · exact hinv.unique_append (by simp)
      · intro run hsome
        obtain rfl := Option.some.inj hsome
        exact ⟨⟨clock, hle, hnow⟩, visited, rest, rfl, rfl, hvisited⟩
    · rw [if_neg (mt hlater.mp hdue)]
      dsimp only
      rw [List.append_nil, ← htimers]
      refine { hinv with running := fun run hsome => ?_ }
      obtain rfl := Option.some.inj hsome
      refine ⟨⟨clock, hle, hnow⟩, visited ++ [cur], rest, by simp [htimers], rfl, ?_⟩
      intro t ht
      rcases List.mem_append.mp ht with hold | hsingle
      · exact hvisited t hold
      · rw [List.mem_singleton.mp hsingle]
        exact Int.not_le.mp hdue

theorem serving_step (event : TimerEvent) (hinv : Serving s log) (hmeet : timersMeet s event) :
    Serving (timerStep s event).1 (log ++ (timerStep s event).2) := by
  have hsame : Serving s (log ++ []) := (List.append_nil log).symm ▸ hinv
  cases event with
  | register timeout hsec wait wait' =>
    rw [timerStep, if_neg (by simp [hinv.alive])]
    exact serving_register hinv hmeet.1 hmeet.2.1 hmeet.2.2
  | unregister reg wait =>
    rw [timerStep, if_neg (by simp [hinv.alive])]
    exact serving_unregister hinv hmeet.1 hmeet.2.1 hmeet.2.2
  | checkNRun wait =>
    rw [timerStep]
    split
    · exact hsame
    · rw [List.append_nil]
      exact serving_checkNRun hinv
  | turn =>
    rw [timerStep]
    split
    · rename_i hrun
      exact serving_turn hinv hrun
    · exact hsame
  | finish wait =>
    rw [timerStep]
    split
    · rename_i hrun
      exact serving_finish hinv hrun hmeet
    · exact hsame

end Steps

theorem serving_init : Serving (timerInit clock) [] where
  alive := rfl
  punctual := explained_nil _
  kept := by simp [timerInit]
  normal := fun t ht => by cases ht
  listed := fun t ht => by cases ht
  nodup := List.nodup_nil
  fresh := fun reg expiry hreg => by cases hreg
  told := fun reg htold => by simp [calledRegs_nil] at htold
  unique := fun reg expiry expiry' hreg => by cases hreg
  running := fun run hrun => by cases hrun

/-- **Timers are served.** In a run whose steps meet the condition, every call is of a timer that is
due, once, every due timer is called, and the interval timer is always set for the earliest of those
that are pending. -/
theorem gsmdTimers_served (events : List TimerEvent)
    (hmeets : gsmdTimers.Meets timersMeet (timerInit clock) events) :
    Served (gsmdTimers.exec (timerInit clock) events).1
      (gsmdTimers.exec (timerInit clock) events).2 :=
  (gsmdTimers.exec_inv Serving (serving_init clock) (fun _ _ event => serving_step event)
    hmeets).toServed

/-- The timer for the next RING, registered early in a second, and called 1.2 s later. -/
theorem gsmdTimers_served_ring :
    Served
      (gsmdTimers.exec (timerInit 10300000)
        [.register ⟨1, 200000⟩ (by decide) 0 0, .checkNRun 1200000, .turn, .finish 0]).1
      (gsmdTimers.exec (timerInit 10300000)
        [.register ⟨1, 200000⟩ (by decide) 0 0, .checkNRun 1200000, .turn, .finish 0]).2 := by
  apply gsmdTimers_served
  refine ⟨⟨by decide, by decide, ?_⟩, trivial, trivial, ?_, trivial⟩
  · intro t ht
    cases ht
  · intro t ht
    cases ht

/-- Late in a second, the sum of the microseconds is above a million, and the timer is called 100 ms
early. -/
theorem gsmdTimers_calls_early :
    ¬ ∀ (clock : ℕ) (events : List TimerEvent),
      Served (gsmdTimers.exec (timerInit clock) events).1
        (gsmdTimers.exec (timerInit clock) events).2 := by
  intro hall
  have hserved := hall 10900000
    [.register ⟨1, 200000⟩ (by decide) 0 0, .checkNRun 1100000, .turn]
  obtain ⟨⟨expiry, hle, hreg⟩, -⟩ := hserved.punctual _ (.called 0 12000000) [] rfl
  rw [List.mem_cons, List.mem_singleton] at hreg
  rcases hreg with heq | heq
  · have hexpiry : expiry = 12100000 := (TimerObs.registered.inj heq).2
    omega
  · cases heq

end Openmoko.Gsmd.Timers
