/-
  Subject: `char buf[size]` as it lies in memory: `size` bytes, of which those in front of the
           first NUL are the text that it holds.

  Reads and writes of a stretch of bytes are refused (`none`) where a byte of the stretch lies
  outside. `memmove` reads before it writes.
-/
import Arksh.Lib.Text

namespace CBuffer

open CText List Option

def nul : Char := '\x00'

/-! ## 1. Bytes -/

structure Buffer (size : Nat) where
  bytes : List Char
  length_bytes : bytes.length = size

variable {size other start : Nat}

def Buffer.read (b : Buffer size) (start count : Nat) : Option Text :=
  if start + count ≤ size then some ((b.bytes.drop start).take count) else none

variable {s : Text}

theorem length_written {b : Buffer size} (h : start + s.length ≤ size) :
    (b.bytes.take start ++ s ++ b.bytes.drop (start + s.length)).length = size := by
  have hlen := b.length_bytes
  simp only [length_append, length_take, length_drop]
  omega

def Buffer.write (b : Buffer size) (start : Nat) (s : Text) : Option (Buffer size) :=
  if h : start + s.length ≤ size then
    some ⟨b.bytes.take start ++ s ++ b.bytes.drop (start + s.length), length_written h⟩
  else none

/-- `memmove(buf + dest, buf + src, count)` -/
def Buffer.move (b : Buffer size) (dest src count : Nat) : Option (Buffer size) :=
  (b.read src count).bind (b.write dest)

/-- `memcpy(buf + dest, from + src, count)` -/
def Buffer.copy (b : Buffer size) (dest : Nat) (source : Buffer other) (src count : Nat) :
    Option (Buffer size) :=
  (source.read src count).bind (b.write dest)

def Buffer.text (b : Buffer size) (start : Nat) : Option Text :=
  if nul ∈ b.bytes.drop start then some ((b.bytes.drop start).takeWhile (· ≠ nul)) else none

def Buffer.copyString (b : Buffer size) (src : Text) : Option (Buffer size) :=
  b.write 0 (CText.copyString size src ++ [nul])

def FirstNul (b : Buffer size) (n : Nat) : Prop := b.bytes[n]? = some nul ∧ nul ∉ b.bytes.take n

/-! ## 2. What a buffer holds -/

structure Holds (b : Buffer size) (t : Text) : Prop where
  plain : nul ∉ t
  front : (t ++ [nul]) <+: b.bytes

variable {b : Buffer size} {t : Text}

section

variable (h : Holds b t)
include h

theorem Holds.length_lt : t.length < size := by
  have hlen := h.front.length_le
  rw [b.length_bytes, length_append, length_singleton] at hlen
  omega

theorem Holds.firstNul : FirstNul b t.length := by
  obtain ⟨rest, hrest⟩ := h.front
  have hplain := h.plain
  unfold FirstNul
  rw [← hrest, append_assoc]
  constructor
  · simp
  · rwa [take_left]

theorem Holds.text (hstart : start ≤ t.length) : b.text start = some (t.drop start) := by
  obtain ⟨rest, hrest⟩ := h.front
  have hdrop : b.bytes.drop start = t.drop start ++ nul :: rest := by
    rw [← hrest, append_assoc, drop_append_of_le_length hstart]
    rfl
  have hall : ∀ c ∈ t.drop start, (fun c => decide (c ≠ nul)) c = true := fun c hc =>
    decide_eq_true fun heq => h.plain (heq ▸ mem_of_mem_drop hc)
  unfold Buffer.text
  rw [hdrop, if_pos (by simp), takeWhile_append_of_pos hall]
  simp

theorem Holds.read {count : Nat} (hcount : start + count ≤ t.length + 1) :
    b.read start count = some (((t ++ [nul]).drop start).take count) := by
  have hlen := h.length_lt
  obtain ⟨rest, hrest⟩ := h.front
  have hle : count ≤ ((t ++ [nul]).drop start).length := by
    simp only [length_drop, length_append, length_singleton]
    omega
  have hstart : start ≤ (t ++ [nul]).length := by simp only [length_append, length_singleton]; omega
  unfold Buffer.read
  rw [if_pos (by omega), ← hrest, drop_append_of_le_length hstart, take_append_of_le_length hle]

theorem Holds.read_tail (hstart : start ≤ t.length) :
    b.read start (t.length - start + 1) = some (t.drop start ++ [nul]) := by
  have hlen : (t.drop start ++ [nul]).length = t.length - start + 1 := by simp
  rw [h.read (by omega), drop_append_of_le_length hstart, ← hlen, take_length]

end

theorem write_eq (h : start + s.length ≤ size) : b.write start s =
      some ⟨b.bytes.take start ++ s ++ b.bytes.drop (start + s.length), length_written h⟩ :=
  dif_pos h

theorem holds_write {u : Text} (hplain : nul ∉ s) (hfront : b.bytes.take start ++ u = s ++ [nul])
    (hroom : start + u.length ≤ size) : ∃ b', b.write start u = some b' ∧ Holds b' s := by
  refine ⟨_, write_eq hroom, hplain, ?_⟩
  refine ⟨b.bytes.drop (start + u.length), ?_⟩
  rw [← hfront]

theorem Holds.take_bytes (h : Holds b t) (hstart : start ≤ t.length) :
    b.bytes.take start = t.take start := by
  obtain ⟨rest, hrest⟩ := h.front
  rw [← hrest, append_assoc, take_append_of_le_length hstart]

theorem take_write (hroom : start + s.length ≤ size) :
    ∃ b', b.write start s = some b' ∧
      b'.bytes.take (start + s.length) = b.bytes.take start ++ s := by
  have hbytes := b.length_bytes
  refine ⟨_, write_eq hroom, ?_⟩
  have hlen : (b.bytes.take start ++ s).length = start + s.length := by
    rw [length_append, length_take]
    omega
  exact take_left' hlen

/-- **`memmove` of the tail and `memcpy` into the gap replace a stretch of the text.** -/
theorem holds_replace (h : Holds b t) {stop : Nat} (hs : nul ∉ s) (hstart : start ≤ stop)
    (hstop : stop ≤ t.length) (hroom : start + s.length + (t.length - stop) < size) :
    ∃ b', (b.move (start + s.length) stop (t.length - stop + 1)).bind (·.write start s) = some b' ∧
      Holds b' (t.take start ++ s ++ t.drop stop) := by
  have hbytes := b.length_bytes
  have htake := h.take_bytes (hstart.trans hstop)
  unfold Buffer.move
  rw [h.read_tail hstop, bind_some, write_eq (by simp; omega), bind_some]
  have hcount : (b.bytes.take (start + s.length)).length = start + s.length := by
    rw [length_take]
    omega
  have hstart' : (b.bytes.take (start + s.length)).take start = t.take start := by
    rw [take_take, min_eq_left (by omega), htake]
  refine ⟨_, write_eq (by omega), ?_, ?_⟩
  · simp only [mem_append, not_or]
    exact ⟨⟨fun hc => h.plain (mem_of_mem_take hc), hs⟩,
      fun hc => h.plain (mem_of_mem_drop hc)⟩
  · dsimp only
    generalize b.bytes.take (start + s.length) = front at hcount hstart' ⊢
    generalize b.bytes.drop _ = rest
    have hfirst : (front ++ (t.drop stop ++ [nul]) ++ rest).take start = t.take start := by
      rw [append_assoc, take_append_of_le_length (by omega), hstart']
    have hlast : (front ++ (t.drop stop ++ [nul]) ++ rest).drop (start + s.length) =
        t.drop stop ++ [nul] ++ rest := by
      rw [append_assoc front, drop_left' hcount]
    rw [hfirst, hlast]
    exact ⟨rest, by simp only [append_assoc]⟩

theorem holds_cut (h : Holds b t) (hstart : start ≤ t.length) :
    ∃ b', b.write start [nul] = some b' ∧ Holds b' (t.take start) := by
  have hlen := h.length_lt
  refine holds_write (fun hc => h.plain (mem_of_mem_take hc)) ?_ ?_
  · rw [h.take_bytes hstart]
  · simp only [length_singleton]; omega

theorem holds_copy {source : Buffer other} (h : Holds source t) (hsize : t.length < size) :
    ∃ b', b.copy 0 source 0 (t.length + 1) = some b' ∧ Holds b' t := by
  have hread := h.read_tail (Nat.zero_le _)
  rw [Nat.sub_zero, drop_zero] at hread
  unfold Buffer.copy
  rw [hread, bind_some]
  exact holds_write h.plain (by simp) (by simp; omega)

theorem holds_copyString (hsize : 0 < size) (hplain : nul ∉ t) :
    ∃ b', b.copyString t = some b' ∧ Holds b' (CText.copyString size t) := by
  have hlen := copyString_length_lt hsize t
  exact holds_write (fun hc => hplain (mem_of_mem_take hc)) (by simp)
    (by simp; omega)

theorem holds_append (h : Holds b t) (hs : nul ∉ s) (hroom : t.length + s.length < size) :
    ∃ b', b.write t.length (s ++ [nul]) = some b' ∧ Holds b' (t ++ s) := by
  have htake := h.take_bytes (le_refl t.length)
  rw [take_length] at htake
  refine holds_write ?_ ?_ (by simp; omega)
  · simp only [mem_append, not_or]; exact ⟨h.plain, hs⟩
  · rw [htake, append_assoc]

end CBuffer
