import Metal.Lib.Memory

namespace Metal.Lib

/-! An array of sectors, as its user sees it. A write that failed has happened, or it has
not, or it may still happen while nothing else is asked for. -/

namespace Sectors

structure Write where
  lba : Nat
  data : Bytes
  deriving DecidableEq

/-- `owed` is a failed write that may still happen. -/
structure Store where
  disk : Bytes
  owed : Option Write

inductive Event
  | refused
  | read (lba nsec : Nat) (data : Bytes)
  | readFailed (lba nsec : Nat)
  | wrote (nsec : Nat) (write : Write)
  | writeFailed (nsec : Nat) (write : Write)
  deriving DecidableEq

variable (size : Nat)

def Write.on (write : Write) (disk : Bytes) : Bytes := writeAt (write.lba * size) write.data disk

def Accepts (disk : Bytes) (lba nsec : Nat) : Prop :=
  0 < nsec ∧ (lba + nsec) * size ≤ disk.length

def AcceptsWrite (disk : Bytes) (nsec : Nat) (write : Write) : Prop :=
  Accepts size disk write.lba nsec ∧ write.data.length = nsec * size

inductive Runs : Store → List Event → Store → Prop
  | start (s : Store) : Runs s [] s
  | refused {s s' : Store} {events : List Event} (before : Runs s events s') :
      Runs s (events ++ [Event.refused]) s'
  | read {s : Store} {disk : Bytes} {events : List Event} {lba nsec : Nat} {data : Bytes}
      (before : Runs s events ⟨disk, none⟩) (accepts : Accepts size disk lba nsec)
      (found : slice disk (lba * size) (nsec * size) = some data) :
      Runs s (events ++ [Event.read lba nsec data]) ⟨disk, none⟩
  | readFailed {s : Store} {disk : Bytes} {events : List Event} {lba nsec : Nat}
      (before : Runs s events ⟨disk, none⟩) (accepts : Accepts size disk lba nsec) :
      Runs s (events ++ [Event.readFailed lba nsec]) ⟨disk, none⟩
  | wrote {s : Store} {disk : Bytes} {events : List Event} {nsec : Nat} {write : Write}
      (before : Runs s events ⟨disk, none⟩) (accepts : AcceptsWrite size disk nsec write) :
      Runs s (events ++ [Event.wrote nsec write]) ⟨write.on size disk, none⟩
  | writeFailed {s : Store} {disk : Bytes} {events : List Event} {nsec : Nat} {write : Write}
      (before : Runs s events ⟨disk, none⟩) (accepts : AcceptsWrite size disk nsec write) :
      Runs s (events ++ [Event.writeFailed nsec write]) ⟨disk, some write⟩
  | late {s : Store} {disk : Bytes} {events : List Event} {write : Write}
      (before : Runs s events ⟨disk, some write⟩) : Runs s events ⟨write.on size disk, none⟩
  | lapsed {s : Store} {disk : Bytes} {events : List Event} {write : Write}
      (before : Runs s events ⟨disk, some write⟩) : Runs s events ⟨disk, none⟩

variable {size}

theorem Write.length_on {write : Write} {disk : Bytes} {nsec : Nat}
    (accepts : AcceptsWrite size disk nsec write) : (write.on size disk).length = disk.length := by
  have fits := accepts.1.2
  rw [Nat.add_mul] at fits
  exact length_writeAt (accepts.2 ▸ fits)

end Sectors

end Metal.Lib
