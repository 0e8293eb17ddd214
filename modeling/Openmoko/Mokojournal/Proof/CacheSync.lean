import Mathlib.Data.List.Nodup
import Mathlib.Data.List.Perm.Basic
import Openmoko.Mokojournal.Journal

/-!
# The cache and the storage agree

Two things break the agreement. Loading adds all that is stored to the cache, whether it is there
already or about to be deleted, and a notification adds what the client has removed in the meantime.
-/

namespace Openmoko.Mokojournal

def Journal.Unnotified (s : Journal) (uid : ℕ) : Prop :=
  (∃ n ∈ s.queue, n.uid = uid ∧ n.foreign = true) ∨ uid ∈ s.unannounced

/-- What is required of a step: of the state behind it, of an entry that a notification tells of,
and of the store behind a write. -/
structure StaysInSync (tellsAll : Bool) (s : Journal) (e : JournalEvent) : Prop where
  nodup : (journalStep tellsAll s e).1.cached.Nodup
  staysRemoved : ∀ uid ∈ (journalStep tellsAll s e).1.removed,
    uid ∉ (journalStep tellsAll s e).1.cached
  appears : e = .notification → ∀ n ∈ s.queue.head?, n.change = .added →
    n.uid ∈ (journalStep tellsAll s e).1.cached
  written : e = .writeToStorage → ∀ uid, ¬(journalStep tellsAll s e).1.Unnotified uid →
    (uid ∈ (journalStep tellsAll s e).1.stored ↔ uid ∈ (journalStep tellsAll s e).1.cached)

/-- Loading finds nothing in the store that is cached or was removed, and no notification adds what
was removed. -/
def journalMeets (s : Journal) : JournalEvent → Prop
  | .loadFromStorage => ∀ uid ∈ s.stored, uid ∉ s.cached ∧ uid ∉ s.removed
  | .notification => ∀ n ∈ s.queue.head?, n.change = .added → n.uid ∉ s.removed
  | _ => True

instance (s : Journal) (e : JournalEvent) : Decidable (journalMeets s e) :=
  match e with
  | .loadFromStorage =>
    inferInstanceAs (Decidable (∀ uid ∈ s.stored, uid ∉ s.cached ∧ uid ∉ s.removed))
  | .notification =>
    inferInstanceAs (Decidable (∀ n ∈ s.queue.head?, n.change = .added → n.uid ∉ s.removed))
  | .addEntry | .removeEntryAt _ | .removeEntryByUid _ | .writeToStorage | .otherAdds
  | .otherRemoves _ => inferInstanceAs (Decidable True)

structure ObjectState where
  cached : Bool
  stored : Bool
  pending : Bool
  removed : Bool
  unannounced : Bool
  news : List Notification
  deriving DecidableEq, Repr

def Journal.object (s : Journal) (pending : List ℕ) (uid : ℕ) : ObjectState :=
  { cached := uid ∈ s.cached
    stored := uid ∈ s.stored
    pending := uid ∈ pending
    removed := uid ∈ s.removed
    unannounced := uid ∈ s.unannounced
    news := s.queue.filter (·.uid = uid) }

def ObjectState.unknown : ObjectState :=
  { cached := false, stored := false, pending := false, removed := false, unannounced := false,
    news := [] }

def ObjectState.Unnotified (o : ObjectState) : Prop :=
  (∃ n ∈ o.news, n.foreign = true) ∨ o.unannounced = true

def Told (stored : Bool) : List Change → Prop
  | [] => True
  | [.added] => stored = true
  | [.removed] | [.added, .removed] => stored = false
  | _ => False

structure ObjectState.Ok (o : ObjectState) : Prop where
  staysRemoved : o.removed = true → o.cached = false
  told : Told o.stored (o.news.map Notification.change)
  ownRemoval : ∀ n ∈ o.news, n.change = .removed → n.foreign = false → o.removed = true
  pendingGone : o.pending = true →
    o.removed = true ∨ (o.stored = false ∧ ∀ n ∈ o.news, n.change ≠ .added)
  cachedStored : ¬o.Unnotified → o.cached = true → o.stored = true
  storedCached : ¬o.Unnotified → o.stored = true → o.cached = true ∨ o.pending = true

theorem unnotified_iff (s : Journal) (pending : List ℕ) (uid : ℕ) :
    s.Unnotified uid ↔ (s.object pending uid).Unnotified := by
  simp [Journal.Unnotified, ObjectState.Unnotified, Journal.object, and_assoc]

structure StoreOk (s : Journal) : Prop where
  nodup : s.stored.Nodup
  bound : ∀ uid ∈ s.stored, uid < s.nextUid
  quiet : s.ecalView = false → s.queue = []

structure Synced (s : Journal) (pending : List ℕ) : Prop where
  objects : ∀ uid, (s.object pending uid).Ok
  fresh : ∀ uid ≥ s.nextUid, s.object pending uid = .unknown
  cachedNodup : s.cached.Nodup
  store : StoreOk s

/-! ### What happens to one object -/

def ObjectState.hear (view : Bool) (n : Notification) (o : ObjectState) : ObjectState :=
  if view then { o with news := o.news ++ [n] }
  else { o with unannounced := n.foreign || o.unannounced }

variable {n : Notification}

section Ok

variable {o : ObjectState} {view : Bool} {uid : ℕ}

theorem ObjectState.Ok.news_of_stored (h : o.Ok) (hstored : o.stored = true) :
    o.news = [] ∨ ∃ n, o.news = [n] ∧ n.change = .added := by
  have htold := h.told
  rw [hstored] at htold
  rcases hnews : o.news with _ | ⟨n, _ | ⟨n', _ | ⟨n'', news⟩⟩⟩
  · exact Or.inl rfl
  · cases hchange : n.change with
    | added => exact Or.inr ⟨n, rfl, hchange⟩
    | removed => simp [hnews, hchange, Told] at htold
  · cases hchange : n.change <;> cases hchange' : n'.change <;>
      simp [hnews, hchange, hchange', Told] at htold
  · cases hchange : n.change <;> cases hchange' : n'.change <;>
      simp [hnews, hchange, hchange', Told] at htold

theorem ok_otherAdds :
    ({ ObjectState.unknown with stored := true }.hear view
      { uid := uid, change := .added, foreign := true }).Ok := by
  cases view <;> constructor <;>
    simp [ObjectState.hear, ObjectState.unknown, ObjectState.Unnotified, Told]

theorem ok_created :
    { { ObjectState.unknown with stored := true }.hear view
      { uid := uid, change := .added, foreign := false } with cached := true }.Ok := by
  cases view <;> constructor <;>
    simp [ObjectState.hear, ObjectState.unknown, ObjectState.Unnotified, Told]

theorem ObjectState.Ok.storeRemoves (h : o.Ok) (hstored : o.stored = true) {foreign : Bool}
    (hview : view = false → o.news = []) (hown : foreign = false → o.removed = true) :
    ({ o with stored := false }.hear view
      { uid := uid, change := .removed, foreign := foreign }).Ok := by
  obtain ⟨cached, stored, pending, removed, unannounced, news⟩ := o
  have hnews := h.news_of_stored hstored
  obtain ⟨hstays, htold, howns, hpending, hcached, hstoredCached⟩ := h
  simp only at hstored
  subst hstored
  cases view with
  | false =>
    obtain rfl := hview rfl
    constructor <;> grind [ObjectState.hear, ObjectState.Unnotified, Told]
  | true =>
    rcases hnews with rfl | ⟨n, rfl, hchange⟩
    · constructor <;> simp [ObjectState.hear, ObjectState.Unnotified, Told] <;> grind
    · constructor <;> simp [ObjectState.hear, ObjectState.Unnotified, Told, hchange] <;> grind

theorem ObjectState.Ok.clientRemoves (h : o.Ok) :
    { o with cached := false, pending := true, removed := true }.Ok :=
  ⟨fun _ => rfl, h.told, fun _ _ _ _ => rfl, fun _ => Or.inl rfl, fun _ => Bool.noConfusion,
    fun _ _ => Or.inr rfl⟩

theorem ObjectState.Ok.pending (h : o.Ok) {pending : Bool}
    (hpending : pending = true → o.pending = true) (hstored : o.stored = false) :
    { o with pending := pending }.Ok :=
  ⟨h.staysRemoved, h.told, h.ownRemoval, fun hp => h.pendingGone (hpending hp), h.cachedStored,
    fun _ htrue => by rw [hstored] at htrue; cases htrue⟩

variable {news : List Notification}

theorem ObjectState.Ok.added (h : o.Ok)
    (hnews : o.news = n :: news) (hchange : n.change = .added) (hremoved : o.removed = false) :
    { o with cached := true, news := news }.Ok := by
  obtain ⟨cached, stored, pending, removed, unannounced, news'⟩ := o
  obtain ⟨hstays, htold, howns, hpending, hcached, hstoredCached⟩ := h
  simp only at hnews hremoved
  subst hnews hremoved
  rcases news with _ | ⟨n', _ | ⟨n'', news⟩⟩
  · constructor <;> simp [Told, hchange] at * <;> grind
  · cases hchange' : n'.change with
    | added => simp [hchange, hchange', Told] at htold
    | removed =>
      constructor <;> simp [ObjectState.Unnotified, Told, hchange, hchange'] at * <;> grind
  · cases hchange' : n'.change <;> simp [hchange, hchange', Told] at htold

theorem ObjectState.Ok.removed (h : o.Ok)
    (hnews : o.news = n :: news) (hchange : n.change = .removed) :
    { o with cached := false, pending := o.pending || o.cached, news := news }.Ok := by
  obtain ⟨cached, stored, pending, removed, unannounced, news'⟩ := o
  obtain ⟨hstays, htold, howns, hpending, hcached, hstoredCached⟩ := h
  simp only at hnews
  subst hnews
  rcases news with _ | ⟨n', news⟩
  · constructor <;> simp [Told, hchange] at * <;> grind
  · cases hchange' : n'.change <;> simp [hchange, hchange', Told] at htold

theorem ObjectState.Ok.load (h : o.Ok) (uid : ℕ) (hstored : o.stored = true → o.removed = false)
    (hnews : news = o.news ∨ (o.news = [] ∧ (news = [] ∨ (o.stored = true ∧
      news = [{ uid := uid, change := .added, foreign := false }])))) :
    { o with
      cached := o.cached || o.stored
      unannounced := o.unannounced && !o.stored
      news := news }.Ok := by
  obtain ⟨cached, stored, pending, removed, unannounced, news'⟩ := o
  obtain ⟨hstays, htold, howns, hpending, hcached, hstoredCached⟩ := h
  simp only at hstored hnews
  rcases hnews with rfl | ⟨rfl, rfl | ⟨rfl, rfl⟩⟩
  · cases stored <;> constructor <;> simp [ObjectState.Unnotified] at * <;> grind
  · cases stored <;> constructor <;> simp [ObjectState.Unnotified] at * <;> grind
  · constructor <;> simp [ObjectState.Unnotified, Told] at * <;> grind

end Ok

/-! ### Operations of the store -/

theorem object_announce (s : Journal) (n : Notification) (pending : List ℕ) (uid : ℕ) :
    (announce s n).object pending uid =
      if n.uid = uid then (s.object pending uid).hear s.ecalView n else s.object pending uid := by
  unfold announce ObjectState.hear
  by_cases huid : n.uid = uid
  · cases hview : s.ecalView <;> cases hforeign : n.foreign <;>
      simp [Journal.object, Journal.cached, huid]
  · cases s.ecalView <;> cases n.foreign <;>
      simp [Journal.object, Journal.cached, huid, Ne.symm huid]

theorem object_eCalCreateObject (s : Journal) (foreign : Bool) (pending : List ℕ) (uid : ℕ) :
    (eCalCreateObject s foreign).1.object pending uid =
      if s.nextUid = uid then
        { s.object pending uid with stored := true }.hear s.ecalView
          { uid := uid, change := .added, foreign := foreign }
      else s.object pending uid := by
  rw [eCalCreateObject, object_announce]
  by_cases huid : s.nextUid = uid
  · subst huid
    simp [Journal.object, Journal.cached]
  · simp [Journal.object, Journal.cached, huid, Ne.symm huid]

theorem object_eCalRemoveObject (s : Journal) (uid' : ℕ) (foreign : Bool) (pending : List ℕ)
    (uid : ℕ) :
    (eCalRemoveObject s uid' foreign).object pending uid =
      if uid' = uid ∧ (s.object pending uid).stored then
        { s.object pending uid with stored := false }.hear s.ecalView
          { uid := uid, change := .removed, foreign := foreign }
      else s.object pending uid := by
  unfold eCalRemoveObject
  by_cases hstored : uid' ∈ s.stored
  · rw [if_pos hstored, object_announce]
    by_cases huid : uid' = uid
    · subst huid
      simp [Journal.object, Journal.cached, hstored]
    · simp [Journal.object, Journal.cached, huid, Ne.symm huid]
  · rw [if_neg hstored]
    by_cases huid : uid' = uid
    · subst huid
      simp [Journal.object, hstored]
    · simp [huid]

theorem StoreOk.announce {s : Journal} (h : StoreOk s) (n : Notification) :
    StoreOk (announce s n) := by
  unfold Mokojournal.announce
  split_ifs with hview
  · exact ⟨h.nodup, h.bound, fun hfalse => by rw [hview] at hfalse; cases hfalse⟩
  · exact ⟨h.nodup, h.bound, h.quiet⟩
  · exact h

theorem StoreOk.create {s : Journal} (h : StoreOk s) (foreign : Bool) :
    StoreOk (eCalCreateObject s foreign).1 := by
  apply StoreOk.announce
  refine ⟨?_, ?_, h.quiet⟩
  · rw [List.nodup_append]
    refine ⟨h.nodup, List.nodup_singleton _, ?_⟩
    rintro uid huid uid' huid' rfl
    have hlt := h.bound uid huid
    rw [List.mem_singleton.mp huid'] at hlt
    exact Nat.lt_irrefl _ hlt
  · intro uid huid
    rcases List.mem_append.mp huid with huid | huid
    · exact Nat.lt_succ_of_lt (h.bound uid huid)
    · rw [List.mem_singleton.mp huid]
      exact Nat.lt_succ_self _

theorem StoreOk.remove {s : Journal} (h : StoreOk s) (uid : ℕ) (foreign : Bool) :
    StoreOk (eCalRemoveObject s uid foreign) := by
  unfold eCalRemoveObject
  split_ifs
  · apply StoreOk.announce
    exact ⟨h.nodup.sublist List.filter_sublist,
      fun uid' huid' => h.bound uid' (List.mem_of_mem_filter huid'), h.quiet⟩
  · exact h

theorem nextUid_create (s : Journal) (foreign : Bool) :
    (eCalCreateObject s foreign).1.nextUid = s.nextUid + 1 := by
  unfold eCalCreateObject Mokojournal.announce
  split_ifs <;> rfl

theorem entries_create (s : Journal) (foreign : Bool) :
    (eCalCreateObject s foreign).1.entries = s.entries := by
  unfold eCalCreateObject Mokojournal.announce
  split_ifs <;> rfl

section Events

variable {s : Journal} {pending : List ℕ}

theorem Synced.news_quiet (h : Synced s pending) (hview : s.ecalView = false) (uid : ℕ) :
    (s.object pending uid).news = [] := by
  rw [Journal.object, h.store.quiet hview]
  rfl

theorem Synced.otherAdds (h : Synced s pending) : Synced (eCalCreateObject s true).1 pending := by
  refine ⟨fun uid => ?_, fun uid huid => ?_, ?_, h.store.create true⟩
  · rw [object_eCalCreateObject]
    split_ifs with hnew
    · subst hnew
      rw [h.fresh _ (Nat.le_refl _)]
      exact ok_otherAdds
    · exact h.objects uid
  · rw [nextUid_create] at huid
    rw [object_eCalCreateObject, if_neg (by omega)]
    exact h.fresh uid (by omega)
  · rw [Journal.cached, entries_create]
    exact h.cachedNodup

theorem entries_remove (s : Journal) (uid : ℕ) (foreign : Bool) :
    (eCalRemoveObject s uid foreign).entries = s.entries := by
  unfold eCalRemoveObject Mokojournal.announce
  split_ifs <;> rfl

theorem nextUid_remove (s : Journal) (uid : ℕ) (foreign : Bool) :
    (eCalRemoveObject s uid foreign).nextUid = s.nextUid := by
  unfold eCalRemoveObject Mokojournal.announce
  split_ifs <;> rfl

theorem Synced.storeRemoves (h : Synced s pending) (uid : ℕ) (foreign : Bool)
    (hown : foreign = false → uid ∈ pending) :
    Synced (eCalRemoveObject s uid foreign) pending := by
  refine ⟨fun uid' => ?_, fun uid' huid' => ?_, ?_, h.store.remove uid foreign⟩
  · rw [object_eCalRemoveObject]
    split_ifs with hstored
    · obtain ⟨rfl, hstored⟩ := hstored
      refine (h.objects uid).storeRemoves hstored (fun hview => h.news_quiet hview uid) fun hf => ?_
      have hpending : (s.object pending uid).pending = true := decide_eq_true (hown hf)
      rcases (h.objects uid).pendingGone hpending with hremoved | ⟨hgone, -⟩
      · exact hremoved
      · rw [hstored] at hgone
        cases hgone
    · exact h.objects uid'
  · rw [nextUid_remove] at huid'
    rw [object_eCalRemoveObject, h.fresh uid' huid', if_neg (by simp [ObjectState.unknown])]
  · rw [Journal.cached, entries_remove]
    exact h.cachedNodup

/-! ### Writing -/

theorem not_stored_after (s : Journal) (uid : ℕ) (foreign : Bool) :
    uid ∉ (eCalRemoveObject s uid foreign).stored := by
  unfold eCalRemoveObject Mokojournal.announce
  split_ifs with hstored <;> simp_all

theorem object_pending (s : Journal) (pending pending' : List ℕ) (uid : ℕ) :
    s.object pending' uid = { s.object pending uid with pending := uid ∈ pending' } := rfl

theorem Synced.delete {uid : ℕ} (h : Synced s (uid :: pending)) :
    Synced (eCalRemoveObject s uid false) pending := by
  have hall := h.storeRemoves uid false fun _ => List.mem_cons_self
  refine ⟨fun uid' => ?_, fun uid' huid' => ?_, hall.cachedNodup, hall.store⟩
  · by_cases huid : uid' = uid
    · subst huid
      have hgone : ((eCalRemoveObject s uid' false).object (uid' :: pending) uid').stored = false :=
        decide_eq_false (not_stored_after s uid' false)
      rw [object_pending _ (uid' :: pending)]
      refine (hall.objects uid').pending (fun hin => ?_) hgone
      simp [Journal.object]
    · rw [object_pending _ (uid :: pending)]
      have hsame : decide (uid' ∈ pending) = decide (uid' ∈ uid :: pending) := by simp [huid]
      rw [hsame]
      exact hall.objects uid'
  · have hunknown := hall.fresh uid' huid'
    have hpending : uid' ∉ uid :: pending :=
      of_decide_eq_false (congrArg ObjectState.pending hunknown)
    rw [object_pending _ (uid :: pending), hunknown,
      decide_eq_false (fun hin => hpending (List.mem_cons_of_mem uid hin))]
    rfl

theorem Synced.deletes (uids : List ℕ) {s : Journal} (h : Synced s uids) :
    Synced (deleteEntries s uids) [] := by
  induction uids generalizing s with
  | nil => exact h
  | cons uid uids ih => exact ih h.delete

theorem object_entries (s : Journal) (pending : List ℕ) (uid : ℕ) (entries : List (Option ℕ)) :
    ({ s with entries := entries } : Journal).object pending uid =
      { s.object pending uid with cached := uid ∈ entries.filterMap id } := rfl

theorem Synced.entries (h : Synced s pending) {entries : List (Option ℕ)}
    (hperm : (entries.filterMap id).Perm s.cached) :
    Synced { s with entries := entries } pending := by
  have hobject : ∀ uid, ({ s with entries := entries } : Journal).object pending uid =
      s.object pending uid := by
    intro uid
    rw [object_entries]
    simp only [hperm.mem_iff]
    rfl
  refine ⟨fun uid => ?_, fun uid huid => ?_, hperm.nodup_iff.mpr h.cachedNodup, ?_⟩
  · rw [hobject]
    exact h.objects uid
  · rw [hobject]
    exact h.fresh uid huid
  · exact ⟨h.store.nodup, h.store.bound, h.store.quiet⟩

theorem create_entries (s : Journal) (foreign : Bool) (entries : List (Option ℕ)) :
    (eCalCreateObject { s with entries := entries } foreign).1 =
      { (eCalCreateObject s foreign).1 with entries := entries } := by
  unfold eCalCreateObject Mokojournal.announce
  dsimp only
  split_ifs <;> rfl

theorem Synced.clientCreates (h : Synced s pending) (entries : List (Option ℕ))
    (hperm : (entries.filterMap id).Perm (s.nextUid :: s.cached)) :
    Synced { (eCalCreateObject s false).1 with entries := entries } pending := by
  have hunknown := h.fresh s.nextUid (Nat.le_refl _)
  have hcached : ∀ uid, uid ≠ s.nextUid →
      decide (uid ∈ entries.filterMap id) = decide (uid ∈ s.cached) := by
    intro uid hne
    simp only [hperm.mem_iff, List.mem_cons, hne, false_or]
  refine ⟨fun uid => ?_, fun uid huid => ?_, ?_, ?_⟩
  · rw [object_entries, object_eCalCreateObject]
    split_ifs with hnew
    · subst hnew
      rw [hunknown, decide_eq_true (hperm.mem_iff.mpr List.mem_cons_self)]
      exact ok_created
    · rw [hcached uid (Ne.symm hnew)]
      exact h.objects uid
  · change uid ≥ (eCalCreateObject s false).1.nextUid at huid
    rw [nextUid_create] at huid
    rw [object_entries, object_eCalCreateObject, if_neg (by omega), hcached uid (by omega)]
    exact h.fresh uid (by omega)
  · refine hperm.nodup_iff.mpr (List.nodup_cons.mpr ⟨?_, h.cachedNodup⟩)
    exact of_decide_eq_false (congrArg ObjectState.cached hunknown)
  · have hstore := h.store.create false
    exact ⟨hstore.nodup, hstore.bound, hstore.quiet⟩

theorem Synced.writes (entries before : List (Option ℕ)) {s : Journal}
    (h : Synced { s with entries := before ++ entries } pending) :
    Synced { (writeEntries s entries).1 with entries := before ++ (writeEntries s entries).2 }
      pending := by
  induction entries generalizing before with
  | nil => exact h
  | cons entry entries ih =>
    have htail := ih (before ++ [entry]) (by rwa [List.append_assoc])
    rw [List.append_assoc] at htail
    cases entry with
    | some uid => exact htail
    | none =>
      have hhead := htail.clientCreates
        (before ++ some (writeEntries s entries).1.nextUid :: (writeEntries s entries).2) ?_
      · rw [create_entries] at hhead
        exact hhead
      · simp [Journal.cached]

theorem Synced.toDelete (h : Synced s pending) (uids : List ℕ) :
    Synced { s with entriesToDelete := uids } pending :=
  ⟨h.objects, h.fresh, h.cachedNodup, h.store.nodup, h.store.bound, h.store.quiet⟩

theorem Synced.write (h : Synced s s.entriesToDelete) :
    Synced (mokoJournalWriteToStorage s) [] := by
  apply Synced.toDelete
  apply Synced.deletes
  exact Synced.writes s.entries [] h

theorem cached_erase {s : Journal} {index : ℕ} {entry : Option ℕ}
    (hentry : s.entries[index]? = some entry) :
    s.cached.Perm ((entry :: s.entries.eraseIdx index).filterMap id) := by
  obtain ⟨hlt, rfl⟩ := List.getElem?_eq_some_iff.mp hentry
  exact (List.getElem_cons_eraseIdx_perm hlt).symm.filterMap id

theorem mem_cached {s : Journal} {uid : ℕ} : uid ∈ s.cached ↔ some uid ∈ s.entries := by
  simp [Journal.cached]

theorem Synced.change (h : Synced s pending) {s' : Journal} {pending' : List ℕ} (uid : ℕ)
    (hothers : ∀ uid', uid' ≠ uid → s'.object pending' uid' = s.object pending uid')
    (hok : (s'.object pending' uid).Ok) (hknown : s.object pending uid ≠ .unknown)
    (hnextUid : s'.nextUid = s.nextUid) (hnodup : s'.cached.Nodup) (hstore : StoreOk s') :
    Synced s' pending' := by
  refine ⟨fun uid' => ?_, fun uid' huid' => ?_, hnodup, hstore⟩
  · by_cases hne : uid' = uid
    · rw [hne]
      exact hok
    · rw [hothers uid' hne]
      exact h.objects uid'
  · rw [hnextUid] at huid'
    have hne : uid' ≠ uid := by
      rintro rfl
      exact hknown (h.fresh uid' huid')
    rw [hothers uid' hne]
    exact h.fresh uid' huid'

theorem known_of_cached {uid : ℕ} (hcached : uid ∈ s.cached) : s.object pending uid ≠ .unknown := by
  intro heq
  exact of_decide_eq_false (congrArg ObjectState.cached heq) hcached

theorem known_of_queue (hqueue : n ∈ s.queue) : s.object pending n.uid ≠ .unknown := by
  intro heq
  have hnews : s.queue.filter (·.uid = n.uid) = [] := congrArg ObjectState.news heq
  have hmem : n ∈ s.queue.filter (·.uid = n.uid) := List.mem_filter.mpr ⟨hqueue, by simp⟩
  rw [hnews] at hmem
  cases hmem

theorem Synced.clientRemoves (h : Synced s s.entriesToDelete) (index : ℕ) :
    Synced (clientRemoves s index) (clientRemoves s index).entriesToDelete := by
  unfold Mokojournal.clientRemoves mokoJournalRemoveEntryAt
  rcases hentry : s.entries[index]? with _ | _ | uid
  · exact h
  · exact h.entries (cached_erase hentry).symm
  · have hperm : s.cached.Perm (uid :: (s.entries.eraseIdx index).filterMap id) :=
      cached_erase hentry
    have hnodup := List.nodup_cons.mp (hperm.nodup_iff.mp h.cachedNodup)
    refine h.change uid (fun uid' hne => ?_) ?_ ?_ rfl hnodup.2 ?_
    · simp only [Journal.object, hperm.mem_iff, List.mem_cons, hne, false_or]
      rfl
    · have hok := (h.objects uid).clientRemoves
      simp only [Journal.object, List.mem_cons_self, decide_true]
      rw [Journal.cached, decide_eq_false hnodup.1]
      exact hok
    · exact known_of_cached (hperm.mem_iff.mpr List.mem_cons_self)
    · exact ⟨h.store.nodup, h.store.bound, h.store.quiet⟩

variable {queue : List Notification}

theorem news_other (hqueue : s.queue = n :: queue) {uid : ℕ} (hne : uid ≠ n.uid) :
    queue.filter (·.uid = uid) = s.queue.filter (·.uid = uid) := by
  rw [hqueue, List.filter_cons_of_neg (by simpa using Ne.symm hne)]

theorem news_own (hqueue : s.queue = n :: queue) :
    (s.object pending n.uid).news = n :: queue.filter (·.uid = n.uid) := by
  rw [Journal.object, hqueue, List.filter_cons_of_pos (by simp)]

theorem StoreOk.notified (h : StoreOk s)
    (hqueue : s.queue = n :: queue) : StoreOk { s with queue := queue } := by
  refine ⟨h.nodup, h.bound, fun hview => ?_⟩
  have hempty := h.quiet hview
  rw [hqueue] at hempty
  cases hempty

theorem Synced.added (h : Synced s s.entriesToDelete)
    (hqueue : s.queue = n :: queue) (hchange : n.change = .added) (hremoved : n.uid ∉ s.removed) :
    Synced (onEntriesAddedCb { s with queue := queue } n.uid).1
      (onEntriesAddedCb { s with queue := queue } n.uid).1.entriesToDelete := by
  have hok := (h.objects n.uid).added (news_own hqueue) hchange (decide_eq_false hremoved)
  have hknown : s.object s.entriesToDelete n.uid ≠ .unknown :=
    known_of_queue (by rw [hqueue]; exact List.mem_cons_self)
  have hstore := h.store.notified hqueue
  unfold onEntriesAddedCb
  split_ifs with hcached
  · have hin : decide (n.uid ∈ s.cached) = true := decide_eq_true (mem_cached.mpr hcached)
    refine h.change n.uid (fun uid hne => ?_) ?_ hknown rfl h.cachedNodup hstore
    · simp only [Journal.object, news_other hqueue hne]
      rfl
    · rw [← hin] at hok
      exact hok
  · have hout : n.uid ∉ s.cached := fun hin => hcached (mem_cached.mp hin)
    have hcons : (mokoJournalAddEntry { s with queue := queue } (some n.uid)).cached =
        s.cached ++ [n.uid] := by
      simp [mokoJournalAddEntry, Journal.cached]
    refine h.change n.uid (fun uid hne => ?_) ?_ hknown rfl ?_
      ⟨hstore.nodup, hstore.bound, hstore.quiet⟩
    · rw [Journal.object, hcons]
      simp only [Journal.object, mokoJournalAddEntry, news_other hqueue hne, List.mem_append,
        List.mem_singleton, hne, or_false]
      rfl
    · rw [Journal.object, hcons, decide_eq_true (List.mem_append_right _ List.mem_cons_self)]
      exact hok
    · rw [hcons]
      exact (List.perm_append_singleton n.uid s.cached).nodup_iff.mpr
        (List.nodup_cons.mpr ⟨hout, h.cachedNodup⟩)

theorem Synced.removed (h : Synced s s.entriesToDelete) (hqueue : s.queue = n :: queue)
    (hchange : n.change = .removed) :
    Synced (onEntriesRemovedCb { s with queue := queue } n.uid).1
      (onEntriesRemovedCb { s with queue := queue } n.uid).1.entriesToDelete := by
  have hok := (h.objects n.uid).removed (news_own hqueue) hchange
  have hknown : s.object s.entriesToDelete n.uid ≠ .unknown :=
    known_of_queue (by rw [hqueue]; exact List.mem_cons_self)
  have hstore := h.store.notified hqueue
  unfold onEntriesRemovedCb mokoJournalRemoveEntryByUid mokoJournalRemoveEntryAt
  rcases hindex : s.entries.findIdx? (· = some n.uid) with _ | index
  · have hout : n.uid ∉ s.cached := by
      intro hin
      have hnone := List.findIdx?_eq_none_iff.mp hindex _ (mem_cached.mp hin)
      simp at hnone
    have hcached : (s.object s.entriesToDelete n.uid).cached = false := decide_eq_false hout
    simp only [Option.bind_none]
    refine h.change n.uid (fun uid hne => ?_) ?_ hknown rfl h.cachedNodup hstore
    · simp only [Journal.object, news_other hqueue hne]
      rfl
    · rw [hcached, Bool.or_false, ← hcached] at hok
      exact hok
  · have hentry : s.entries[index]? = some (some n.uid) := by
      obtain ⟨hlt, hfound, -⟩ := List.findIdx?_eq_some_iff_getElem.mp hindex
      exact List.getElem?_eq_some_iff.mpr ⟨hlt, of_decide_eq_true hfound⟩
    have hperm : s.cached.Perm (n.uid :: (s.entries.eraseIdx index).filterMap id) :=
      cached_erase hentry
    have hnodup := List.nodup_cons.mp (hperm.nodup_iff.mp h.cachedNodup)
    have hcached : (s.object s.entriesToDelete n.uid).cached = true :=
      decide_eq_true (hperm.mem_iff.mpr List.mem_cons_self)
    simp only [Option.bind_some, hentry]
    refine h.change n.uid (fun uid hne => ?_) ?_ hknown rfl hnodup.2
      ⟨hstore.nodup, hstore.bound, hstore.quiet⟩
    · simp only [Journal.object, hperm.mem_iff, List.mem_cons, hne, false_or,
        news_other hqueue hne]
      rfl
    · rw [hcached, Bool.or_true] at hok
      simp only [Journal.object, List.mem_cons_self, decide_true]
      rw [Journal.cached, decide_eq_false hnodup.1]
      exact hok

theorem cached_load (s : Journal) (tellsAll : Bool) :
    (mokoJournalLoadFromStorage tellsAll s).cached = s.cached ++ s.stored := by
  unfold mokoJournalLoadFromStorage eCalViewStart
  split_ifs <;> simp [Journal.cached]

theorem news_start {stored : List ℕ} (hnodup : stored.Nodup) (uid : ℕ) :
    (stored.map fun uid' =>
        ({ uid := uid', change := .added, foreign := false } : Notification)).filter
        (·.uid = uid) =
      if uid ∈ stored then [{ uid := uid, change := .added, foreign := false }] else [] := by
  induction stored with
  | nil => rfl
  | cons uid' stored ih =>
    obtain ⟨hout, hnodup⟩ := List.nodup_cons.mp hnodup
    by_cases hne : uid' = uid
    · subst hne
      simp [ih hnodup, hout]
    · simp [ih hnodup, hne, Ne.symm hne]

theorem object_load (h : Synced s pending) (tellsAll : Bool) (uid : ℕ) :
    ∃ news, (mokoJournalLoadFromStorage tellsAll s).object pending uid =
      { s.object pending uid with
        cached := (s.object pending uid).cached || (s.object pending uid).stored
        unannounced := (s.object pending uid).unannounced && !(s.object pending uid).stored
        news := news } ∧
      (news = (s.object pending uid).news ∨ ((s.object pending uid).news = [] ∧
        (news = [] ∨ ((s.object pending uid).stored = true ∧
          news = [{ uid := uid, change := .added, foreign := false }])))) := by
  refine ⟨((mokoJournalLoadFromStorage tellsAll s).object pending uid).news, ?_, ?_⟩
  · rw [Journal.object, cached_load]
    unfold mokoJournalLoadFromStorage eCalViewStart
    split_ifs <;> simp [Journal.object]
  · by_cases hview : s.ecalView
    · left
      simp [mokoJournalLoadFromStorage, Journal.object, hview]
    · refine Or.inr ⟨h.news_quiet (by simpa using hview) uid, ?_⟩
      cases tellsAll with
      | false =>
        left
        simp [mokoJournalLoadFromStorage, eCalViewStart, Journal.object, hview]
      | true =>
        simp only [mokoJournalLoadFromStorage, eCalViewStart, Journal.object, hview, if_true,
          if_false, Bool.false_eq_true, news_start h.store.nodup]
        by_cases hstored : uid ∈ s.stored
        · simp [hstored]
        · simp [hstored]

theorem Synced.load (h : Synced s pending) (tellsAll : Bool)
    (hmeets : journalMeets s .loadFromStorage) :
    Synced (mokoJournalLoadFromStorage tellsAll s) pending := by
  refine ⟨fun uid => ?_, fun uid huid => ?_, ?_, ?_⟩
  · obtain ⟨news, hobject, hnews⟩ := object_load h tellsAll uid
    rw [hobject]
    refine (h.objects uid).load uid (fun hstored => ?_) hnews
    exact decide_eq_false (hmeets uid (of_decide_eq_true hstored)).2
  · have hunknown := h.fresh uid ?_
    · obtain ⟨news, hobject, hnews⟩ := object_load h tellsAll uid
      rw [hobject]
      rw [hunknown] at hnews ⊢
      simp [ObjectState.unknown] at hnews ⊢
      exact hnews
    · unfold mokoJournalLoadFromStorage eCalViewStart at huid
      split_ifs at huid <;> exact huid
  · rw [cached_load, List.nodup_append]
    refine ⟨h.cachedNodup, h.store.nodup, ?_⟩
    rintro uid hcached uid' hstored rfl
    exact (hmeets uid hstored).1 hcached
  · unfold mokoJournalLoadFromStorage eCalViewStart
    split_ifs
    · exact ⟨h.store.nodup, h.store.bound, h.store.quiet⟩
    all_goals exact ⟨h.store.nodup, h.store.bound, fun hfalse => by cases hfalse⟩

end Events

/-! ### Runs -/

theorem synced_open {stored : List ℕ} {nextUid : ℕ} (hnodup : stored.Nodup)
    (hbound : ∀ uid ∈ stored, uid < nextUid) :
    Synced (mokoJournalOpen stored nextUid) (mokoJournalOpen stored nextUid).entriesToDelete := by
  refine ⟨fun uid => ?_, fun uid huid => ?_, List.nodup_nil, hnodup, hbound, fun _ => rfl⟩
  · by_cases hstored : uid ∈ stored <;> constructor <;>
      simp [mokoJournalOpen, Journal.object, Journal.cached, ObjectState.Unnotified, Told, hstored]
  · have hout : uid ∉ stored :=
      fun hin => Nat.lt_irrefl _ (Nat.lt_of_lt_of_le (hbound uid hin) huid)
    simp [mokoJournalOpen, Journal.object, Journal.cached, ObjectState.unknown, hout]

theorem Synced.step {s : Journal} (h : Synced s s.entriesToDelete) (tellsAll : Bool)
    {e : JournalEvent} (hmeets : journalMeets s e) :
    Synced (journalStep tellsAll s e).1 (journalStep tellsAll s e).1.entriesToDelete := by
  cases e with
  | loadFromStorage =>
    have hload := h.load tellsAll hmeets
    have hsame : (mokoJournalLoadFromStorage tellsAll s).entriesToDelete = s.entriesToDelete := by
      unfold mokoJournalLoadFromStorage eCalViewStart
      split_ifs <;> rfl
    rw [← hsame] at hload
    exact hload
  | addEntry =>
    apply h.entries
    rw [List.filterMap_append]
    simp [Journal.cached]
  | removeEntryAt index => exact h.clientRemoves index
  | removeEntryByUid uid =>
    rw [journalStep]
    split
    · exact h.clientRemoves _
    · exact h
  | writeToStorage => exact h.write
  | notification =>
    rw [journalStep]
    split
    · exact h
    · next n queue hqueue =>
      have hhead : n ∈ s.queue.head? := by rw [hqueue]; rfl
      split
      · next hchange => exact h.added hqueue hchange (hmeets n hhead hchange)
      · next hchange => exact h.removed hqueue hchange
  | otherAdds =>
    have hadds := h.otherAdds
    have hsame : (eCalCreateObject s true).1.entriesToDelete = s.entriesToDelete := by
      unfold eCalCreateObject Mokojournal.announce
      split_ifs <;> rfl
    rw [← hsame] at hadds
    exact hadds
  | otherRemoves uid =>
    have hremoves := h.storeRemoves uid true fun hfalse => by cases hfalse
    have hsame : (eCalRemoveObject s uid true).entriesToDelete = s.entriesToDelete := by
      unfold eCalRemoveObject Mokojournal.announce
      split_ifs <;> rfl
    rw [← hsame] at hremoves
    exact hremoves

theorem mem_cached_added (s : Journal) (uid : ℕ) : uid ∈ (onEntriesAddedCb s uid).1.cached := by
  unfold onEntriesAddedCb
  split_ifs with hcached
  · exact mem_cached.mpr hcached
  · simp [mokoJournalAddEntry, Journal.cached]

theorem removed_added (s : Journal) (uid : ℕ) : (onEntriesAddedCb s uid).1.removed = s.removed := by
  unfold onEntriesAddedCb
  split_ifs <;> rfl

theorem removed_load (s : Journal) (tellsAll : Bool) :
    (mokoJournalLoadFromStorage tellsAll s).removed = s.removed := by
  unfold mokoJournalLoadFromStorage eCalViewStart
  split_ifs <;> rfl

theorem staysInSync_iff {s : Journal} (h : Synced s s.entriesToDelete) (tellsAll : Bool)
    (e : JournalEvent) : StaysInSync tellsAll s e ↔ journalMeets s e := by
  constructor
  · intro hsync
    cases e with
    | loadFromStorage =>
      intro uid hstored
      have hcached := cached_load s tellsAll
      constructor
      · have hnodup := hsync.nodup
        rw [journalStep, hcached, List.nodup_append] at hnodup
        exact fun hin => hnodup.2.2 uid hin uid hstored rfl
      · intro hremoved
        refine hsync.staysRemoved uid ?_ ?_
        · rw [journalStep, removed_load]
          exact hremoved
        · rw [journalStep, hcached]
          exact List.mem_append_right _ hstored
    | notification =>
      intro n hhead hchange hremoved
      obtain ⟨queue, hqueue⟩ : ∃ queue, s.queue = n :: queue := List.head?_eq_some_iff.mp hhead
      have hstep : journalStep tellsAll s .notification =
          onEntriesAddedCb { s with queue := queue } n.uid := by
        simp only [journalStep, hqueue, hchange]
      have hstays := hsync.staysRemoved n.uid
      rw [hstep, removed_added] at hstays
      exact hstays hremoved (mem_cached_added _ _)
    | addEntry | removeEntryAt index | removeEntryByUid uid | writeToStorage | otherAdds
      | otherRemoves uid => trivial
  · intro hmeets
    have hnext := h.step tellsAll hmeets
    refine ⟨hnext.cachedNodup, fun uid hremoved => ?_, fun he n hhead hchange => ?_,
      fun he uid hnotified => ?_⟩
    · exact of_decide_eq_false ((hnext.objects uid).staysRemoved (decide_eq_true hremoved))
    · subst he
      obtain ⟨queue, hqueue⟩ : ∃ queue, s.queue = n :: queue := List.head?_eq_some_iff.mp hhead
      simp only [journalStep, hqueue, hchange]
      exact mem_cached_added _ _
    · subst he
      have hok := h.write.objects uid
      rw [unnotified_iff _ []] at hnotified
      constructor
      · intro hstored
        rcases hok.storedCached hnotified (decide_eq_true hstored) with hcached | hpending
        · exact of_decide_eq_true hcached
        · cases hpending
      · intro hcached
        exact of_decide_eq_true (hok.cachedStored hnotified (decide_eq_true hcached))

/-- **The cache and the store agree exactly as long as** loading finds nothing that is cached or was
removed, and no notification adds an entry that the client has removed meanwhile. -/
theorem stays_in_sync_iff (tellsAll : Bool) (stored : List ℕ) (nextUid : ℕ) (hnodup : stored.Nodup)
    (hbound : ∀ uid ∈ stored, uid < nextUid) (events : List JournalEvent) :
    (journal tellsAll).Meets (StaysInSync tellsAll) (mokoJournalOpen stored nextUid) events ↔
      (journal tellsAll).Meets journalMeets (mokoJournalOpen stored nextUid) events :=
  (journal tellsAll).meets_iff_of_inv (fun s => Synced s s.entriesToDelete)
    (synced_open hnodup hbound)
    (fun _ e h => ⟨staysInSync_iff h tellsAll e, fun hmeets => h.step tellsAll hmeets⟩) events

/-- A stored entry is loaded, another one is added and written, somebody adds a third, all of it is
told, and the first is removed. -/
theorem stays_in_sync_session :
    [0].Nodup ∧ (∀ uid ∈ [0], uid < 1) ∧
      (journal false).Meets (StaysInSync false) (mokoJournalOpen [0] 1)
        [.loadFromStorage, .addEntry, .writeToStorage, .otherAdds, .notification, .notification,
          .removeEntryByUid 0, .writeToStorage, .notification] :=
  ⟨by decide, by decide, (stays_in_sync_iff false [0] 1 (by decide) (by decide) _).mpr (by decide)⟩

/-- Loaded twice, an entry is cached twice; removed before it was told to have been added, it comes
back. -/
theorem not_stays_in_sync_twice :
    ¬(journal false).Meets (StaysInSync false) (mokoJournalOpen [0] 1)
        [.loadFromStorage, .loadFromStorage] ∧
      ¬(journal false).Meets (StaysInSync false) (mokoJournalOpen [] 0)
        [.loadFromStorage, .addEntry, .writeToStorage, .removeEntryAt 0, .notification] := by
  constructor
  · rintro ⟨-, hload, -⟩
    have hnodup := hload.nodup
    revert hnodup
    decide
  · rintro ⟨-, -, -, -, hnotified, -⟩
    have hstays := hnotified.staysRemoved 0
    revert hstays
    decide

end Openmoko.Mokojournal
