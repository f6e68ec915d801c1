import Velcrux.Sync.Transaction

/-!
# What a directory transaction promises

After a crash and recovery, the staged paths all have their old contents or all their new ones.
-/

namespace Velcrux.Sync

namespace DirectoryTransaction

structure Staged (tx : DirectoryTransaction) (d : Disk) : Prop where
  state : tx.state = .staging
  journal : d.journal = some ⟨.staging, tx.items⟩
  distinct : (tx.items.map TransactionItem.relPath).Nodup
  unapplied : ∀ item ∈ tx.items, item.applied = false
  backup : ∀ item ∈ tx.items, item.backupPath = none
  shadow : ∀ item ∈ tx.items,
    item.shadowPath = if item.action = .delete then none else some item.relPath

variable (d : Disk)

def newContent (item : TransactionItem) : Option Bytes := item.shadowPath.bind d.shadow

def moves (item : TransactionItem) : List Point :=
  if item.action = .delete then
    if (d.target item.relPath).isSome then [.removeFile item.relPath] else []
  else
    .createDirAll item.relPath ::
      (if (d.target item.relPath).isSome then [.removeFile item.relPath] else []) ++
      [.rename item.relPath]

variable (items : List TransactionItem)

end DirectoryTransaction

end Velcrux.Sync
