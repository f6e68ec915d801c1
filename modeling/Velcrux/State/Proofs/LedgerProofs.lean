import Velcrux.State.Ledger

/-!
# What the ledger and the state store keep

Entries of the ledger are never removed and never change their path; the operations of the state
store on existing rows never change a row's role and key.
-/

namespace Velcrux.State

namespace SqliteStateStore

def KeysIn (P : String → Prop) (s : SqliteStateStore) : Prop :=
  ∀ r ∈ s.transfers, r.role = .server → P r.idempotencyKey

variable {P : String → Prop} {s : SqliteStateStore}

theorem keysIn_of_map {t : SqliteStateStore} {f : TransferRecord → TransferRecord}
    (ht : t.transfers = s.transfers.map f)
    (hf : ∀ r ∈ s.transfers, (f r).role = .server → P (f r).idempotencyKey) : t.KeysIn P := by
  intro r hr hrole
  rw [ht] at hr
  obtain ⟨r0, hr0, rfl⟩ := List.mem_map.mp hr
  exact hf r0 hr0 hrole

variable {r : TransferRecord}

theorem mem_of_getTransfer {transferId : TransferId}
    (h : s.getTransfer transferId = .ok r) : r ∈ s.transfers := by
  unfold getTransfer at h
  split at h
  · rename_i r' hfind
    cases h
    exact List.mem_of_find?_eq_some hfind
  · cases h

theorem KeysIn.updateTransfer (h : s.KeysIn P)
    (hr : r.role = .server → P r.idempotencyKey) : (s.updateTransfer r).KeysIn P := by
  refine keysIn_of_map rfl fun r0 hr0 => ?_
  split_ifs
  · exact hr
  · exact h r0 hr0

theorem KeysIn.writeBitmap (h : s.KeysIn P) (transferId : TransferId) (bitmap : ChunkBitmap)
    (now : ℕ) : (s.writeBitmap transferId bitmap now).KeysIn P := by
  unfold SqliteStateStore.writeBitmap
  split_ifs
  · refine keysIn_of_map rfl fun r0 hr0 => ?_
    split_ifs <;> exact h r0 hr0
  · exact h

theorem KeysIn.writeJournal (h : s.KeysIn P) (e : CommitJournalEntry) :
    (s.writeJournal e).KeysIn P := by
  unfold SqliteStateStore.writeJournal
  split_ifs <;> exact h

theorem KeysIn.upsertTransfer (h : s.KeysIn P)
    (hr : r.role = .server → P r.idempotencyKey) : (s.upsertTransfer r).2.KeysIn P := by
  unfold SqliteStateStore.upsertTransfer
  split
  · split_ifs <;> exact h
  · split_ifs
    · exact h
    · intro r0 hr0
      rcases List.mem_append.mp hr0 with hr0 | hr0
      · exact h r0 hr0
      · obtain rfl : r0 = r := by simpa using hr0
        exact hr

end SqliteStateStore

namespace IdempotencyLedger

variable {l : IdempotencyLedger} {key : String}

def Knows (l : IdempotencyLedger) (key : String) : Prop := (l.entries .server key).isSome = true

theorem entries_modify (f : LedgerEntry → LedgerEntry) (k : String) :
    (l.modify .server key f).entries .server k =
      if k = key then (l.entries .server k).map f else l.entries .server k := by
  simp [modify]

variable {f : LedgerEntry → LedgerEntry}

theorem exists_of_entries_modify {k : String} {e : LedgerEntry}
    (h : (l.modify .server key f).entries .server k = some e) :
    ∃ e0, l.entries .server k = some e0 ∧ (e = e0 ∨ k = key ∧ e = f e0) := by
  rw [entries_modify] at h
  split_ifs at h with hk
  · obtain ⟨e0, he0, rfl⟩ := Option.map_eq_some_iff.mp h
    exact ⟨e0, he0, .inr ⟨hk, rfl⟩⟩
  · exact ⟨e, h, .inl rfl⟩

theorem exists_entries_modify {k : String} {e : LedgerEntry} (h : l.entries .server k = some e) :
    ∃ e', (l.modify .server key f).entries .server k = some e' ∧ (e' = e ∨ e' = f e) := by
  rw [entries_modify]
  split_ifs
  · exact ⟨f e, by simp [h], .inr rfl⟩
  · exact ⟨e, h, .inl rfl⟩

theorem entries_insert (e : LedgerEntry) (k : String) :
    (l.insert .server key e).entries .server k =
      if k = key then some e else l.entries .server k := by
  simp [insert]

end IdempotencyLedger

end Velcrux.State
