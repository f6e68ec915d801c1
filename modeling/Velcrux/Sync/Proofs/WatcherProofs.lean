import Velcrux.Sync.Watcher

/-!
# When a batch of changes goes out

The time beside a pending event is that of the last push of its path, unless events were merged.
-/

namespace Velcrux.Sync

open List

variable {coalesce : Bool} {q : DebounceQueue} {path : String}

namespace DebounceQueue

theorem lookup_push (q : DebounceQueue) (event : FileChangeEvent) (now : ℕ) (path : String) :
    (q.push coalesce event now).pending.lookup path = if path = event.relPath then
      (entryAfter coalesce (q.pending.lookup path) event now).1 else q.pending.lookup path := by
  unfold push
  dsimp only
  split_ifs with h
  · subst h
    cases (entryAfter coalesce (q.pending.lookup event.relPath) event now).1 <;> simp
  · cases (entryAfter coalesce (q.pending.lookup event.relPath) event now).1 <;>
      simp [AList.lookup_erase_ne h, AList.lookup_insert_ne h]

theorem time_of_coalesced {existing x : Pending} {event : FileChangeEvent}
    (h : (coalesced existing event).1 = some x) :
    x.2 = existing.2 ∧ ¬ (existing.1.kind = .created ∧ event.kind = .deleted) := by
  unfold coalesced at h
  split at h <;> cases h <;> simp_all

theorem lastPush_of_noneMerged {pushes : List Pending} (h : NoneMerged coalesce pushes)
    {x : Pending} (hx : (pushed coalesce pushes).pending.lookup path = some x) :
    lastPush pushes path = some x.2 := by
  induction pushes with
  | nil => cases hx
  | cons y pushes ih =>
    obtain ⟨hmerged, hy⟩ := h
    rw [pushed, lookup_push] at hx
    split_ifs at hx with hpath
    · subst hpath
      rw [lastPush, find?_cons_of_pos (by simp), Option.map_some]
      unfold entryAfter at hx
      split at hx
      · rename_i existing hexisting
        obtain ⟨htime, hkinds⟩ := time_of_coalesced hx
        rw [htime, (hy rfl existing hexisting).resolve_right hkinds]
      · cases hx
        rfl
    · rw [lastPush, find?_cons_of_neg (by simpa using Ne.symm hpath)]
      exact ih hmerged hx

theorem ready_of_drainReady {window now : ℕ} (h : (q.drainReady window now).2.isSome) {x : Pending}
    (hx : q.pending.lookup path = some x) : window ≤ now - x.2 := by
  unfold drainReady at h
  split_ifs at h with hempty hall
  · cases h
  · exact of_decide_eq_true (all_eq_true.mp hall _ (AList.mem_lookup_iff.mp hx))
  · cases h

/-- **A batch waits for quiet** if no event is merged into an entry with an older time. -/
theorem waitsForQuiet_of_noneMerged {pushes : List Pending} (h : NoneMerged coalesce pushes) :
    WaitsForQuiet coalesce pushes := by
  intro window now hnow hbatch path hpath t ht
  obtain ⟨x, hx⟩ := Option.isSome_iff_exists.mp (AList.lookup_isSome.mpr hpath)
  have hready := ready_of_drainReady hbatch hx
  rw [lastPush_of_noneMerged h hx] at ht
  obtain rfl := Option.some.inj ht
  obtain ⟨y, hy, htime⟩ := Option.map_eq_some_iff.mp (lastPush_of_noneMerged h hx)
  have := hnow y (mem_of_find?_eq_some hy)
  omega

def eventAt (path : String) (kind : ChangeKind) (now : ℕ) : Pending := (⟨path, kind, 1, now, 0⟩, now)

/-- A file comes, goes and comes again, where two events of one moment are merged; others change. -/
def apart : List Pending :=
  [eventAt "c" .modified 9, eventAt "a" .modified 7, eventAt "a" .created 7, eventAt "a" .deleted 5,
    eventAt "b" .modified 4, eventAt "a" .created 3]

theorem waitsForQuiet_apart : NoneMerged true apart ∧
    ((pushed true apart).drainReady 5 14).2.isSome = true ∧ WaitsForQuiet true apart :=
  have h : NoneMerged true apart := by decide
  ⟨h, by decide, waitsForQuiet_of_noneMerged h⟩

/-- A file is written at 0 and again at 5, and goes out at 5 although it should be quiet for 5. -/
theorem not_waitsForQuiet_merged :
    ¬ WaitsForQuiet true [eventAt "a" .modified 5, eventAt "a" .created 0] := by
  intro h
  exact absurd (h 5 5 (by decide) (by decide) "a" (by decide) 5 rfl) (by decide)

end DebounceQueue

end Velcrux.Sync
