import Velcrux.Session.Committing

/-!
# What COMMITTED says

An upload that is told COMMITTED has had its content at the destination, and a path whose deletion
is confirmed has been absent. The reply is sent after a rename, for a destination that already has
the content, from the ledger alone, and after a delete whatever the backend returned.
-/

namespace Velcrux.Session

open Protocol State Storage Transfer Transition

variable (cfg : ServerConfig) (H : HashFn) (w : World)

def BearsKey (key : String) : Event → Prop
  | .request _ create _ _ _ _ => create.idempotencyKey = key
  | _ => False

def IsRequest (i : ℕ) : Event → Prop
  | .request j _ _ _ _ _ => j = i
  | _ => False

variable (create : TransferCreate)

def Deletes : Prop := create.op = .delete ∨ create.op = .syncDelete

def WasInPlace (h : List (World × Event)) (w : World) (create : TransferCreate) : Prop :=
  ∃ m bytes, Moment (BearsKey create.idempotencyKey) h w m ∧
    m.files.readAt (cfg.layout.resolve create.dstPath) = some bytes ∧ H bytes = create.fileHash

def WasAbsent (h : List (World × Event)) (w : World) (i : ℕ) (create : TransferCreate) : Prop :=
  ∃ m, Moment (IsRequest i) h w m ∧ m.files.names (cfg.layout.resolve create.dstPath) = none

/-- **COMMITTED does not lie**, for every TRANSFER_CREATE that has been answered with it. -/
def Truthful (h : List (World × Event)) (w : World) : Prop :=
  ∀ i task, w.tasks i = some task → task.viaResume = false → task.phase = .committed →
    (task.create.op = .upload → task.create.fileHash ≠ .zero → WasInPlace cfg H h w task.create) ∧
    (Deletes task.create → WasAbsent cfg h w i task.create)

/-! ## The condition -/

def OnlyThisUpload : Prop :=
  ∀ j other, w.tasks j = some other → other.viaResume = false →
    other.create.idempotencyKey = create.idempotencyKey →
    other.create.op = .upload ∧ other.create.fileHash = create.fileHash

def KeyUnused : Prop :=
  ∀ j other, w.tasks j = some other → other.viaResume = false →
    other.create.idempotencyKey ≠ create.idempotencyKey

/-- The steps after which COMMITTED can be trusted: a key that the ledger looks at is not reused for
something else, a delete succeeds, and no file is hashed while it is written. -/
def Faithful : Event → Prop
  | .request _ create _ _ _ _ =>
    w.ledger.isSome = true → create.idempotencyKey ≠ "" →
      (create.op = .upload → OnlyThisUpload w create) ∧
      (Deletes create → KeyUnused w create ∨
        w.files.names (cfg.layout.resolve create.dstPath) = none)
  | .openExisting i =>
    ∀ task inode, w.tasks i = some task → w.files.fileAt (cfg.destPath task) = some inode →
      ∀ j other, w.tasks j = some other → other.holds = true → other.staged ≠ some inode
  | .prestage i | .begin i _ =>
    ∀ task inode, w.tasks i = some task →
      w.files.names (cfg.stagingPath task) = some (.file inode) →
      ∀ j other size read, w.tasks j = some other →
        other.phase ≠ .hashingExisting inode size read
  | .execute i ok =>
    ∀ task, w.tasks i = some task → Deletes task.create →
      ok = true ∨ w.files.names (cfg.destPath task) = none
  | _ => True

end Velcrux.Session
