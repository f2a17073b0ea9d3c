import Mathlib.Data.List.Basic
import Mathlib.Tactic.Common
import Mathlib.Algebra.Group.Nat.Defs

/-!
# Files of bytes

Writing to and reading from a file at a movable position. `Reads f bytes a` says that `f` finds `a` in
`bytes`, wherever these stand in a file; the rules follow the ways in which a reader is put together.
-/

namespace Circom.Lib

variable {bytes : List UInt8}

/-! ## Writing -/

structure ByteWriter where
  bytes : List UInt8
  pos : ℕ

namespace ByteWriter

/-- Offsets in a file are signed numbers of 64 bits. -/
@[irreducible] def maxSize : ℕ := 2 ^ 63

def empty : ByteWriter := ⟨[], 0⟩

/-- Writes over the bytes at the position and moves on. Fails when the file would get too long. -/
def writeAll (data : List UInt8) (w : ByteWriter) : Option ByteWriter :=
  if w.pos + data.length < maxSize then
    some
      { bytes := w.bytes.take w.pos ++ data ++ w.bytes.drop (w.pos + data.length)
        pos := w.pos + data.length }
  else none

def seek (pos : ℕ) (w : ByteWriter) : ByteWriter := { w with pos }

/-- The writer stands at the end of `bytes`. -/
def atEnd (bytes : List UInt8) : ByteWriter := ⟨bytes, bytes.length⟩

theorem writeAll_atEnd (data bytes : List UInt8) :
    (atEnd bytes).writeAll data =
      if (bytes ++ data).length < maxSize then some (atEnd (bytes ++ data)) else none := by
  have hdrop : bytes.drop (bytes.length + data.length) = [] := List.drop_eq_nil_of_le (by omega)
  rw [writeAll, List.length_append]
  simp [atEnd, hdrop]

/-- Going back to write over bytes that are there, and returning to the end. -/
theorem writeAll_seek {pre old data post : List UInt8} (hlen : data.length = old.length)
    (hsize : (pre ++ old ++ post).length < maxSize) :
    ((atEnd (pre ++ old ++ post)).seek pre.length).writeAll data =
      some ⟨pre ++ data ++ post, pre.length + data.length⟩ := by
  simp only [List.length_append] at hsize
  have hlt : pre.length + data.length < maxSize := by omega
  have hdrop : (pre ++ old ++ post).drop (pre.length + data.length) = post := by
    rw [hlen, ← List.length_append, List.drop_left]
  rw [writeAll, seek, if_pos hlt]
  simp only [atEnd, hdrop]
  rw [List.append_assoc pre old post, List.take_left]

end ByteWriter

section Appends

variable {σ α : Type} {room : ℕ} {state : List UInt8 → σ}

/-- In the state after `bytes`, the action writes `data` if there is room for them and fails otherwise. -/
def Appends (room : ℕ) (state : List UInt8 → σ) (f : σ → Option σ) (data : List UInt8) : Prop :=
  ∀ bytes : List UInt8, bytes.length < room →
    f (state bytes) = if (bytes ++ data).length < room then some (state (bytes ++ data)) else none

theorem appends_some : Appends room state some [] := by
  intro bytes h
  rw [List.append_nil, if_pos h]

theorem Appends.bind {f g : σ → Option σ} {data data' : List UInt8}
    (hf : Appends room state f data) (hg : Appends room state g data') :
    Appends room state (fun s => do let s ← f s; g s) (data ++ data') := by
  intro bytes h
  show (f (state bytes)).bind g = _
  rw [hf bytes h, ← List.append_assoc]
  by_cases hroom : (bytes ++ data).length < room
  · rw [if_pos hroom, Option.bind_some, hg _ hroom]
  · have hlong : ¬ (bytes ++ data ++ data').length < room := by
      rw [List.length_append]
      omega
    rw [if_neg hroom, if_neg hlong, Option.bind_none]

/-- The items of a list, each of which writes its own bytes. -/
theorem appends_foldlM {f : σ → α → Option σ} {encode : α → List UInt8} {l : List α}
    (h : ∀ a ∈ l, Appends room state (f · a) (encode a)) :
    Appends room state (fun s => l.foldlM f s) (l.flatMap encode) := by
  induction l with
  | nil => exact appends_some
  | cons a l ih =>
    have htail := ih fun b hb => h b (List.mem_cons_of_mem a hb)
    exact (h a List.mem_cons_self).bind htail

end Appends

/-! ## Reading -/

structure ByteReader where
  bytes : List UInt8
  pos : ℕ

/-- A function that reads from a file, or fails. -/
abbrev Read (ε α : Type) := StateT ByteReader (Except ε) α

section Read

variable {ε α β : Type}

/-- The next `n` bytes. -/
def readExact (eof : ε) (n : ℕ) : Read ε (List UInt8) := fun r =>
  if r.pos + n ≤ r.bytes.length then
    .ok ((r.bytes.drop r.pos).take n, { r with pos := r.pos + n })
  else .error eof

def position : Read ε ℕ := fun r => .ok (r.pos, r)

def seekTo (pos : ℕ) : Read ε Unit := fun r => .ok ((), { r with pos })

/-- Reads the items of a list, one after the other. -/
def readTimes (f : Read ε α) : ℕ → Read ε (List α)
  | 0 => pure []
  | n + 1 => do
    let a ← f
    let as ← readTimes f n
    pure (a :: as)

/-- Wherever the bytes stand in a file, `f` reads `a` from them and ends behind them. -/
def Reads (f : Read ε α) (bytes : List UInt8) (a : α) : Prop :=
  ∀ pre post, f ⟨pre ++ bytes ++ post, pre.length⟩ =
    .ok (a, ⟨pre ++ bytes ++ post, pre.length + bytes.length⟩)

/-- Running a first part that succeeds. -/
theorem bind_of_ok {f : Read ε α} {r r' : ByteReader} {a : α} (h : f r = .ok (a, r'))
    (g : α → Read ε β) : (f >>= g) r = g a r' := by
  show (f r >>= fun x => g x.1 x.2) = _
  rw [h]
  rfl

theorem Reads.eq_ok {f : Read ε α} {a : α} (h : Reads f bytes a) {file pre post : List UInt8} {start stop : ℕ}
    (hfile : file = pre ++ bytes ++ post) (hstart : start = pre.length) (hstop : stop = start + bytes.length) :
    f ⟨file, start⟩ = .ok (a, ⟨file, stop⟩) := by
  subst hfile hstop hstart
  exact h pre post

theorem reads_pure (a : α) : Reads (pure a : Read ε α) [] a := by
  intro pre post
  rw [List.append_nil]
  rfl

theorem reads_readExact (eof : ε) {n : ℕ} (h : bytes.length = n) : Reads (readExact eof n) bytes bytes := by
  intro pre post
  subst h
  have hle : pre.length + bytes.length ≤ (pre ++ bytes ++ post).length := by
    simp only [List.length_append]
    omega
  rw [readExact, if_pos hle]
  simp only [List.append_assoc, List.drop_left, List.take_left]

theorem Reads.bind {f : Read ε α} {g : α → Read ε β} {bytes' : List UInt8} {a : α} {b : β} (hf : Reads f bytes a)
    (hg : Reads (g a) bytes' b) : Reads (f >>= g) (bytes ++ bytes') b := by
  intro pre post
  have h1 := hf pre (bytes' ++ post)
  have h2 := hg (pre ++ bytes) post
  rw [List.append_assoc _ bytes' post, List.length_append] at h2
  have hassoc : pre ++ (bytes ++ bytes') ++ post = pre ++ bytes ++ (bytes' ++ post) := by
    simp only [List.append_assoc]
  rw [hassoc, bind_of_ok h1, List.length_append, ← Nat.add_assoc]
  exact h2

theorem Reads.map {f : Read ε α} {a : α} (hf : Reads f bytes a) (k : α → β) :
    Reads (f >>= fun a => pure (k a)) bytes (k a) := by
  have h := hf.bind (g := fun a => pure (k a)) (reads_pure (k a))
  rw [List.append_nil] at h
  exact h

/-- A conversion that reads nothing. -/
theorem reads_lift {k : Except ε α} {a : α} (hk : k = .ok a) : Reads (liftM k : Read ε α) [] a := by
  rw [hk]
  exact reads_pure a

/-- A value that is converted after it has been read. -/
theorem Reads.lift {f : Read ε α} {k : α → Except ε β} {a : α} {b : β} (hf : Reads f bytes a) (hk : k a = .ok b) :
    Reads (f >>= fun a => (liftM (k a) : Read ε β)) bytes b := by
  have h := hf.bind (g := fun a => liftM (k a)) (reads_lift hk)
  rw [List.append_nil] at h
  exact h

/-- The items of a list, each of which is read from its own bytes. -/
theorem reads_readTimes {f : Read ε β} {encode : α → List UInt8} {value : α → β} {l : List α}
    (h : ∀ a ∈ l, Reads f (encode a) (value a)) :
    Reads (readTimes f l.length) (l.flatMap encode) (l.map value) := by
  induction l with
  | nil => exact reads_pure []
  | cons a l ih =>
    have htail := ih fun b hb => h b (List.mem_cons_of_mem a hb)
    exact (h a List.mem_cons_self).bind (htail.map (value a :: ·))

end Read

end Circom.Lib
