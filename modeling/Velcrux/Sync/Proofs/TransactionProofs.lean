import Velcrux.Sync.Atomicity

/-!
# Crashes and failures of a directory transaction

`prepare` leaves the target alone and gives every item what `commit` relies on (`Ready`). The loop
of `commit` then moves items one after the other (`movedAll`). Recovery goes by the flags in the
journal, which say that nothing was applied.
-/

namespace Velcrux.Sync

open List Function Disk

variable {tx : DirectoryTransaction} {relPath : String} {d1 : Disk}

namespace DirectoryTransaction

variable {env : Point → Fate} {H : HashFn} {d d' : Disk} {p : Point}

structure SameButBackup (d d' : Disk) : Prop where
  target : d'.target = d.target
  shadow : d'.shadow = d.shadow
  journal : d'.journal = d.journal

theorem SameButBackup.rfl : SameButBackup d d := ⟨Eq.refl _, Eq.refl _, Eq.refl _⟩

theorem SameButBackup.trans {d'' : Disk} (h : SameButBackup d d') (h' : SameButBackup d' d'') :
    SameButBackup d d'' :=
  ⟨h'.target.trans h.target, h'.shadow.trans h.shadow, h'.journal.trans h.journal⟩

def CrashOnly (env : Point → Fate) : Prop := ∀ q message, env q ≠ .fails message

theorem CrashOnly.cases (h : CrashOnly env) (q : Point) : env q = .crashes ∨ env q = .works := by
  cases hq : env q with
  | crashes => exact .inl rfl
  | fails m => exact absurd hq (h q m)
  | works => exact .inr rfl

def NeedsBackup (d : Disk) (item : TransactionItem) : Prop :=
  item.action ≠ .create ∧ (d.target item.relPath).isSome

instance (d : Disk) (item : TransactionItem) : Decidable (NeedsBackup d item) :=
  inferInstanceAs (Decidable (_ ∧ _))

variable {r : List TransactionItem × ℕ × ℕ}

structure Ready (d : Disk) (item : TransactionItem) : Prop where
  unapplied : item.applied = false
  shadowPath : item.shadowPath = if item.action = .delete then none else some item.relPath
  staged : item.action ≠ .delete → (d.shadow item.relPath).isSome
  backupPath : item.backupPath = if NeedsBackup d item then some item.relPath else none
  backup : NeedsBackup d item → d.backup item.relPath = d.target item.relPath

variable {item : TransactionItem}

theorem Ready.journal (h : Ready d item) (j : Option TransactionJournal) :
    Ready { d with journal := j } item := { h with }

structure Prepared (d : Disk) (items : List TransactionItem) : Prop where
  distinct : (items.map TransactionItem.relPath).Nodup
  ready : ∀ item ∈ items, Ready d item

variable {items : List TransactionItem}

theorem Prepared.journal (h : Prepared d items)
    (j : Option TransactionJournal) : Prepared { d with journal := j } items :=
  ⟨h.distinct, fun item hitem => (h.ready item hitem).journal j⟩

def movedDisk (d : Disk) (item : TransactionItem) : Disk :=
  { d with
    target := Function.update d.target item.relPath (newContent d item)
    shadow := if item.action = .delete then d.shadow
      else Function.update d.shadow item.relPath none }

section Item

variable {item : TransactionItem}

end Item

/-! ## Many items -/

theorem movedDisk_other (h : relPath ≠ item.relPath) :
    (movedDisk d item).target relPath = d.target relPath ∧
      (movedDisk d item).shadow relPath = d.shadow relPath := by
  refine ⟨update_of_ne h .., ?_⟩
  simp only [movedDisk]
  split_ifs
  · rfl
  · exact update_of_ne h ..

theorem ready_movedDisk {item other : TransactionItem} (hother : Ready d other)
    (h : other.relPath ≠ item.relPath) : Ready (movedDisk d item) other := by
  obtain ⟨ht, hs⟩ := movedDisk_other h
  have hneeds : NeedsBackup (movedDisk d item) other ↔ NeedsBackup d other := by
    rw [NeedsBackup, NeedsBackup, ht]
  refine ⟨hother.unapplied, hother.shadowPath, ?_, ?_, ?_⟩
  · rw [hs]
    exact hother.staged
  · rw [hother.backupPath]
    simp only [hneeds]
  · rw [hneeds, ht]
    exact hother.backup

theorem Prepared.tail {items : List TransactionItem} (h : Prepared d (item :: items)) :
    (∀ other ∈ items, other.relPath ≠ item.relPath) ∧ Prepared (movedDisk d item) items := by
  obtain ⟨hnot, hnodup⟩ := nodup_cons.mp h.distinct
  have hne : ∀ other ∈ items, other.relPath ≠ item.relPath := fun other ho heq =>
    hnot (heq ▸ mem_map_of_mem ho)
  exact ⟨hne, hnodup, fun other ho =>
    ready_movedDisk (h.ready other (mem_cons_of_mem _ ho)) (hne other ho)⟩

structure Reached (d now : Disk) (pre rest : List TransactionItem) : Prop where
  moved : ∀ item ∈ pre, now.target item.relPath = newContent d item
  kept : ∀ item ∈ rest, now.target item.relPath = d.target item.relPath
  apart : ∀ item ∈ pre, ∀ other ∈ rest, item.relPath ≠ other.relPath
  backup : now.backup = d.backup
  journal : now.journal = d.journal
  ready : ∀ item ∈ rest, Ready now item

section Crash

variable {items : List TransactionItem}

end Crash

def oneFile : Disk :=
  ⟨fun path => if path = "b" then some [1] else none, fun _ => none, fun _ => none,
    some ⟨.staging, []⟩⟩

end DirectoryTransaction

end Velcrux.Sync
