/-
  Subject: The scratch arena of `src/arena.c`: the chunks, an allocation, and the memory that
           `malloc` gave for them.

  Sizes are those of x86-64, and `size_t` counts modulo 2^64. The product of count and item size
  is guarded, the sums with the alignment and the header of a chunk are not. Where they wrap, a
  block gets a chunk that is too small for it and another one is taken again and again, or the
  chunk has a capacity that its memory has not.
-/
import Arksh.Lib.Text
import Mathlib.Algebra.Group.Nat.Defs
import Mathlib.Data.List.Infix
import Mathlib.Data.Prod.Lex

namespace Arksh

open List

/-! ## 1. Chunks -/

/-- `sizeof(max_align_t)` -/
def maxAlign : Nat := 32

/-- `sizeof(ArkshScratchChunk)`, without the data behind it. -/
def chunkHeader : Nat := 24

def defaultChunkSize : Nat := 64 * 1024

/-- `align_up` to `maxAlign`; the mask clears the lower bits. -/
def alignUp (value : Nat) : Nat := (value + (maxAlign - 1)) % 2 ^ 64 / maxAlign * maxAlign

def multiplySize (left right : Nat) : Option Nat :=
  if left = 0 ∨ right = 0 then some 0
  else if left > (2 ^ 64 - 1) / right then none else some (left * right % 2 ^ 64)

/-- A chunk, with the size of the memory that `malloc` gave for it. -/
structure ScratchChunk where
  capacity : Nat
  used : Nat
  memory : Nat

/-- No memory is given for more than half of the address space. -/
def mallocGives (available : Bool) (size : Nat) : Bool := available && size ≤ 2 ^ 63

def allocateChunk (available : Bool) (capacity : Nat) : Option ScratchChunk :=
  let size := (chunkHeader + capacity) % 2 ^ 64
  if mallocGives available size then some ⟨capacity, 0, size⟩ else none

def chunkCapacity (bytes : Nat) : Nat :=
  if (bytes + maxAlign) % 2 ^ 64 > defaultChunkSize then (bytes + maxAlign) % 2 ^ 64
  else defaultChunkSize

/-! ## 2. The arena -/

/-- The chunks before the current one, and it with those behind it; with none, `current` is
    `NULL`. -/
structure ScratchArena where
  before : List ScratchChunk
  after : List ScratchChunk

def ScratchArena.chunks (arena : ScratchArena) : List ScratchChunk := arena.before ++ arena.after

structure ScratchBlock where
  chunk : Nat
  offset : Nat
  size : Nat
  deriving DecidableEq

/-- The arena behind an allocation, the block unless it is `NULL`, and the calls of `malloc`. -/
structure ScratchResult where
  arena : ScratchArena
  block : Option ScratchBlock
  mallocs : Nat

/-- The loop of `arksh_scratch_alloc_zero`, of at most that many rounds, from a current chunk. -/
def allocLoop (available : Bool) (bytes : Nat) : Nat → List ScratchChunk → ScratchChunk →
    List ScratchChunk → Nat → Option ScratchResult
  | 0, _, _, _, _ => none
  | rounds + 1, before, chunk, after, mallocs =>
    let offset := alignUp chunk.used
    if offset ≤ chunk.capacity ∧ bytes ≤ chunk.capacity - offset then
      some ⟨⟨before, { chunk with used := offset + bytes } :: after⟩,
        some ⟨before.length, offset, bytes⟩, mallocs⟩
    else
      match after with
      | next :: after =>
        allocLoop available bytes rounds (before ++ [chunk]) { next with used := 0 } after mallocs
      | [] =>
        match allocateChunk available (chunkCapacity bytes) with
        | none => some ⟨⟨before, [chunk]⟩, none, mallocs⟩
        | some next => allocLoop available bytes rounds (before ++ [chunk]) next [] (mallocs + 1)

def arkshScratchAllocZero (available : Bool) (rounds : Nat) (arena : ScratchArena)
    (count itemSize : Nat) : Option ScratchResult :=
  if count = 0 ∨ itemSize = 0 then some ⟨arena, none, 0⟩
  else
    match multiplySize count itemSize with
    | none => some ⟨arena, none, 0⟩
    | some bytes =>
      match arena.after, arena.before with
      | chunk :: after, before => allocLoop available bytes rounds before chunk after 0
      | [], head :: after => allocLoop available bytes rounds [] { head with used := 0 } after 0
      | [], [] =>
        match allocateChunk available (chunkCapacity bytes) with
        | none => some ⟨arena, none, 0⟩
        | some head => allocLoop available bytes rounds [] head [] 1

/-! ## 3. What is meant -/

structure ScratchChunk.Sound (chunk : ScratchChunk) : Prop where
  used_le : chunk.used ≤ chunk.capacity
  capacity_le : chunkHeader + chunk.capacity ≤ chunk.memory
  memory_le : chunk.memory ≤ 2 ^ 63

structure SoundArena extends ScratchArena where
  sound : ∀ chunk ∈ before ++ after, chunk.Sound

def ScratchBlock.InMemory (block : ScratchBlock) (arena : ScratchArena) (size : Nat) : Prop :=
  block.size = size ∧ ∃ chunk, arena.chunks[block.chunk]? = some chunk ∧
    chunkHeader + block.offset + size ≤ chunk.memory

/-- The call ends, with one chunk more at most, and its block lies in memory. -/
def ScratchAllocLaw (arena : SoundArena) (count itemSize : Nat) : Prop :=
  ∃ rounds result,
    arkshScratchAllocZero true rounds arena.toScratchArena count itemSize = some result ∧
      result.mallocs ≤ 1 ∧
      ∀ block ∈ result.block, block.InMemory result.arena (count * itemSize)

/-! ## 4. Sizes -/

def Fits (bytes : Nat) : Prop := bytes + maxAlign + chunkHeader < 2 ^ 64

theorem multiplySize_eq (left right : Nat) :
    multiplySize left right = if left * right < 2 ^ 64 then some (left * right) else none := by
  unfold multiplySize
  split
  next hzero => rcases hzero with rfl | rfl <;> simp
  next hzero =>
    obtain ⟨hleft, hright⟩ := not_or.mp hzero
    have hguard : left > (2 ^ 64 - 1) / right ↔ ¬ left * right < 2 ^ 64 := by
      rw [gt_iff_lt, Nat.div_lt_iff_lt_mul (Nat.pos_of_ne_zero hright)]
      omega
    rw [if_congr hguard rfl rfl, ite_not]
    split
    next hlt => rw [Nat.mod_eq_of_lt hlt]
    · rfl

theorem le_alignUp {value : Nat} (h : value + maxAlign ≤ 2 ^ 64) : value ≤ alignUp value := by
  unfold alignUp maxAlign at *
  omega

theorem alignUp_zero : alignUp 0 = 0 := by decide

variable {chunk : ScratchChunk} {rounds : Nat}

theorem ScratchChunk.Sound.reset (h : chunk.Sound) : { chunk with used := 0 }.Sound :=
  ⟨Nat.zero_le _, h.2, h.3⟩

variable {bytes count itemSize : Nat}

theorem chunkCapacity_spec (h : Fits bytes) :
    bytes ≤ chunkCapacity bytes ∧ chunkHeader + chunkCapacity bytes < 2 ^ 64 := by
  unfold Fits maxAlign chunkHeader at h
  unfold chunkCapacity maxAlign chunkHeader defaultChunkSize
  split <;> omega

theorem allocateChunk_sound {available : Bool} (h : Fits bytes)
    (hchunk : allocateChunk available (chunkCapacity bytes) = some chunk) :
    chunk.Sound ∧ chunk.used = 0 ∧ bytes ≤ chunk.capacity := by
  obtain ⟨hbytes, hsize⟩ := chunkCapacity_spec h
  simp only [allocateChunk, mallocGives, Nat.mod_eq_of_lt hsize, Bool.and_eq_true,
    decide_eq_true_eq, Option.ite_none_right_eq_some, Option.some.injEq] at hchunk
  obtain ⟨⟨-, hmemory⟩, rfl⟩ := hchunk
  exact ⟨⟨Nat.zero_le _, le_rfl, hmemory⟩, rfl, hbytes⟩

/-! ## 5. Places -/

/-- Where the next block is put, by chunk and offset. -/
def ScratchArena.cursor (arena : ScratchArena) : ℕ ×ₗ ℕ :=
  match arena.after with
  | [] => toLex (0, 0)
  | chunk :: _ => toLex (arena.before.length, chunk.used)

def ScratchBlock.start (block : ScratchBlock) : ℕ ×ₗ ℕ := toLex (block.chunk, block.offset)

def ScratchBlock.stop (block : ScratchBlock) : ℕ ×ₗ ℕ :=
  toLex (block.chunk, block.offset + block.size)

def ScratchBlock.InCapacity (block : ScratchBlock) (capacities : List Nat) : Prop :=
  ∃ capacity, capacities[block.chunk]? = some capacity ∧ block.offset + block.size ≤ capacity

def ScratchArena.capacities (arena : ScratchArena) : List Nat := arena.chunks.map (·.capacity)

def ScratchResult.Placed (result : ScratchResult) (cursor : ℕ ×ₗ ℕ) (bytes : Nat) : Prop :=
  match result.block with
  | none => cursor ≤ result.arena.cursor
  | some block => cursor ≤ block.start ∧ result.arena.cursor = block.stop ∧ block.size = bytes ∧
      block.InCapacity result.arena.capacities

structure AllocSpec (bytes : Nat) (arena : ScratchArena) (result : ScratchResult) : Prop where
  sound : ∀ chunk ∈ result.arena.chunks, chunk.Sound
  capacities : arena.capacities <+: result.arena.capacities
  current : result.arena.after ≠ [] ∨ result.arena = arena
  placed : result.Placed arena.cursor bytes

variable (available : Bool) {bytes mallocs : Nat} {before after : List ScratchChunk}
  {chunk : ScratchChunk} {arena : ScratchArena} {result : ScratchResult}

theorem AllocSpec.of_le {arena' : ScratchArena} (h : AllocSpec bytes arena' result)
    (hcurrent : arena'.after ≠ [])
    (hcapacities : arena.capacities <+: arena'.capacities)
    (hcursor : arena.cursor ≤ arena'.cursor) :
    AllocSpec bytes arena result := by
  refine ⟨h.sound, hcapacities.trans h.capacities,
    .inl (h.current.elim id fun heq => heq ▸ hcurrent), ?_⟩
  have hplaced := h.placed
  unfold ScratchResult.Placed at hplaced ⊢
  split at hplaced
  · exact hcursor.trans hplaced
  · exact ⟨hcursor.trans hplaced.1, hplaced.2⟩

theorem allocLoop_room (hsound : ∀ c ∈ before ++ chunk :: after, c.Sound)
    (hroom : alignUp chunk.used ≤ chunk.capacity ∧ bytes ≤ chunk.capacity - alignUp chunk.used) :
    AllocSpec bytes ⟨before, chunk :: after⟩
      ⟨⟨before, { chunk with used := alignUp chunk.used + bytes } :: after⟩,
        some ⟨before.length, alignUp chunk.used, bytes⟩, mallocs⟩ := by
  obtain ⟨hused, hcapacity, hmemory⟩ := hsound chunk (by simp)
  refine ⟨fun c hc => ?_, ?_, .inl (cons_ne_nil _ _), ?_, rfl, rfl, chunk.capacity, ?_, ?_⟩
  · simp only [ScratchArena.chunks, mem_append, mem_cons] at hc
    rcases hc with hc | rfl | hc
    · exact hsound c (by simp [hc])
    · exact ⟨by dsimp only; omega, hcapacity, hmemory⟩
    · exact hsound c (by simp [hc])
  · simp [ScratchArena.capacities, ScratchArena.chunks]
  · refine Prod.Lex.toLex_le_toLex.mpr (.inr ⟨rfl, le_alignUp ?_⟩)
    unfold chunkHeader at hcapacity
    unfold maxAlign
    omega
  · simp [ScratchArena.capacities, ScratchArena.chunks]
  · dsimp only; omega

theorem cursor_le_next (next : ScratchChunk) (after' : List ScratchChunk) :
    ScratchArena.cursor ⟨before, chunk :: after⟩ ≤
      ScratchArena.cursor ⟨before ++ [chunk], next :: after'⟩ :=
  Prod.Lex.toLex_le_toLex.mpr (.inl (by simp))

theorem cursor_le_head : ScratchArena.cursor ⟨before, []⟩ ≤
    ScratchArena.cursor ⟨[], chunk :: after⟩ :=
  Prod.Lex.toLex_le_toLex.mpr (.inr ⟨rfl, Nat.zero_le _⟩)

theorem allocLoop_new (hfits : Fits bytes) (rounds mallocs : Nat) (hsound : ∀ c ∈ before, c.Sound)
    (hchunk : allocateChunk available (chunkCapacity bytes) = some chunk) : ∃ result,
      allocLoop available bytes (rounds + 1) before chunk [] mallocs = some result ∧
        result.mallocs = mallocs ∧ AllocSpec bytes ⟨before, [chunk]⟩ result := by
  obtain ⟨hnew, hused, hbytes⟩ := allocateChunk_sound hfits hchunk
  have hroom : alignUp chunk.used ≤ chunk.capacity ∧
      bytes ≤ chunk.capacity - alignUp chunk.used := by
    rw [hused, alignUp_zero]
    exact ⟨Nat.zero_le _, hbytes⟩
  refine ⟨_, if_pos hroom, rfl, allocLoop_room (fun c hc => ?_) hroom⟩
  rcases mem_append.mp hc with hc | hc
  · exact hsound c hc
  · exact mem_singleton.mp hc ▸ hnew

theorem allocLoop_spec (hfits : Fits bytes) (rounds : Nat) :
    ∀ {before chunk mallocs}, (∀ c ∈ before ++ chunk :: after, c.Sound) → ∃ result,
      allocLoop available bytes (rounds + after.length + 2) before chunk after mallocs =
        some result ∧ result.mallocs ≤ mallocs + 1 ∧
      AllocSpec bytes ⟨before, chunk :: after⟩ result := by
  induction after with
  | nil =>
    intro before chunk mallocs hsound
    rw [allocLoop]
    by_cases hroom : alignUp chunk.used ≤ chunk.capacity ∧
      bytes ≤ chunk.capacity - alignUp chunk.used
    · exact ⟨_, if_pos hroom, Nat.le_succ _, allocLoop_room hsound hroom⟩
    rw [if_neg hroom]
    cases hchunk : allocateChunk available (chunkCapacity bytes) with
    | none => exact ⟨_, rfl, Nat.le_succ _, hsound, prefix_rfl, .inl (cons_ne_nil _ _), le_rfl⟩
    | some next =>
      obtain ⟨result, hresult, hmallocs, hspec⟩ :=
        allocLoop_new available hfits rounds (mallocs + 1) hsound hchunk
      exact ⟨result, hresult, hmallocs.le,
        hspec.of_le (cons_ne_nil _ _) (by simp [ScratchArena.capacities, ScratchArena.chunks])
          (cursor_le_next ..)⟩
  | cons next after ih =>
    intro before chunk mallocs hsound
    rw [length_cons, ← Nat.add_assoc, Nat.add_right_comm _ 1 2, allocLoop]
    by_cases hroom : alignUp chunk.used ≤ chunk.capacity ∧
      bytes ≤ chunk.capacity - alignUp chunk.used
    · exact ⟨_, if_pos hroom, Nat.le_succ _, allocLoop_room hsound hroom⟩
    rw [if_neg hroom]
    have hnext : ∀ c ∈ (before ++ [chunk]) ++ { next with used := 0 } :: after, c.Sound := by
      intro c hc
      simp only [append_assoc, singleton_append, mem_append, mem_cons] at hc hsound
      rcases hc with hc | rfl | rfl | hc
      · exact hsound c (.inl hc)
      · exact hsound c (.inr (.inl rfl))
      · exact (hsound next (.inr (.inr (.inl rfl)))).reset
      · exact hsound c (.inr (.inr (.inr hc)))
    obtain ⟨result, hresult, hmallocs, hspec⟩ := ih hnext
    exact ⟨result, hresult, hmallocs,
      hspec.of_le (cons_ne_nil _ _) (by simp [ScratchArena.capacities, ScratchArena.chunks])
        (cursor_le_next ..)⟩

theorem arkshScratchAllocZero_spec (hsound : ∀ c ∈ arena.chunks, c.Sound)
    (hfits : count * itemSize < 2 ^ 64 → Fits (count * itemSize)) : ∃ result,
      arkshScratchAllocZero available (arena.chunks.length + 2) arena count itemSize =
        some result ∧ result.mallocs ≤ 1 ∧ AllocSpec (count * itemSize) arena result := by
  have hnull : AllocSpec (count * itemSize) arena ⟨arena, none, 0⟩ :=
    ⟨hsound, prefix_rfl, .inr rfl, le_rfl⟩
  unfold arkshScratchAllocZero
  split
  · exact ⟨_, rfl, Nat.zero_le _, hnull⟩
  rw [multiplySize_eq]
  split
  next hbytes => exact ⟨_, rfl, Nat.zero_le _, hnull⟩
  next bytes hbytes =>
  obtain ⟨hlt, heq⟩ := Option.ite_none_right_eq_some.mp hbytes
  obtain rfl := Option.some.inj heq
  obtain ⟨before, after⟩ := arena
  dsimp only [ScratchArena.chunks] at hsound ⊢
  split
  next chunk after =>
    have hrounds : (before ++ chunk :: after).length + 2 =
        (before.length + 1) + after.length + 2 := by simp; omega
    rw [hrounds]
    exact allocLoop_spec available (hfits hlt) _ hsound
  next head after =>
    have hhead : ∀ c ∈ [] ++ { head with used := 0 } :: after, c.Sound := by
      intro c hc
      rcases mem_cons.mp hc with rfl | hc
      · exact (hsound head (by simp)).reset
      · exact hsound c (by simp [hc])
    have hrounds : (head :: after ++ []).length + 2 = 1 + after.length + 2 := by simp; omega
    rw [hrounds]
    obtain ⟨result, hresult, hmallocs, hspec⟩ := allocLoop_spec available (hfits hlt) 1 hhead
    exact ⟨result, hresult, hmallocs, hspec.of_le (cons_ne_nil _ _)
      (by simp [ScratchArena.capacities, ScratchArena.chunks]) cursor_le_head⟩
  · cases hchunk : allocateChunk available (chunkCapacity (count * itemSize)) with
    | none => exact ⟨_, rfl, Nat.zero_le _, hnull⟩
    | some head =>
      obtain ⟨result, hresult, hmallocs, hspec⟩ :=
        allocLoop_new available (hfits hlt) 1 1 (fun c hc => absurd hc (not_mem_nil)) hchunk
      exact ⟨result, hresult, hmallocs.le, hspec.of_le (cons_ne_nil _ _)
        (by simp [ScratchArena.capacities, ScratchArena.chunks]) cursor_le_head⟩

/-- With a chunk to be had, the loop ends with a block. -/
theorem allocLoop_given (hchunk : (allocateChunk true (chunkCapacity bytes)).isSome)
    (h : allocLoop true bytes rounds before chunk after mallocs = some result) :
    result.block.isSome := by
  induction rounds generalizing before chunk after mallocs with
  | zero => cases h
  | succ rounds ih =>
    unfold allocLoop at h
    dsimp only at h
    split at h
    · cases h; rfl
    cases after with
    | cons next after => exact ih h
    | nil =>
      obtain ⟨next, hnext⟩ := Option.isSome_iff_exists.mp hchunk
      rw [hnext] at h
      exact ih h

/-- **An allocation gets a block where memory is left.** -/
theorem arkshScratchAllocZero_given (hcount : count ≠ 0) (hitem : itemSize ≠ 0)
    (hsize : count * itemSize + maxAlign + chunkHeader ≤ 2 ^ 63)
    (h : arkshScratchAllocZero true rounds arena count itemSize = some result) :
    result.block.isSome := by
  unfold maxAlign chunkHeader at hsize
  have hchunk : (allocateChunk true (chunkCapacity (count * itemSize))).isSome := by
    have hcapacity : (chunkHeader + chunkCapacity (count * itemSize)) % 2 ^ 64 ≤ 2 ^ 63 := by
      unfold chunkCapacity maxAlign chunkHeader defaultChunkSize
      split <;> omega
    rw [allocateChunk, mallocGives, decide_eq_true hcapacity]
    rfl
  unfold arkshScratchAllocZero at h
  rw [if_neg (by simp [hcount, hitem]), multiplySize_eq, if_pos (by omega)] at h
  obtain ⟨before, after⟩ := arena
  dsimp only at h
  split at h
  · exact allocLoop_given hchunk h
  · exact allocLoop_given hchunk h
  · obtain ⟨head, hhead⟩ := Option.isSome_iff_exists.mp hchunk
    rw [hhead] at h
    exact allocLoop_given hchunk h

/-! ## 6. The law -/

section

variable (hbytes : bytes < 2 ^ 64)
include hbytes

theorem allocateChunk_wraps {next : ScratchChunk} (hfits : ¬ Fits bytes)
    (hnext : allocateChunk true (chunkCapacity bytes) = some next) :
    next.Sound ∨ next.used = 0 ∧ bytes ≤ next.capacity ∧ next.memory < bytes := by
  unfold Fits maxAlign chunkHeader at hfits
  simp only [allocateChunk, mallocGives, Bool.true_and, decide_eq_true_eq,
    Option.ite_none_right_eq_some, Option.some.injEq] at hnext
  obtain ⟨-, rfl⟩ := hnext
  unfold chunkCapacity maxAlign defaultChunkSize chunkHeader
  split
  · exact .inr ⟨rfl, by dsimp only; omega, by dsimp only; omega⟩
  · exact .inl ⟨Nat.zero_le _, by decide, by decide⟩

theorem allocateChunk_isSome (hfits : ¬ Fits bytes) :
    (allocateChunk true (chunkCapacity bytes)).isSome := by
  unfold Fits maxAlign chunkHeader at hfits
  unfold allocateChunk mallocGives chunkCapacity maxAlign chunkHeader defaultChunkSize
  split <;> simp
  omega

theorem allocLoop_wraps (hfits : ¬ Fits bytes) :
    ∀ {before chunk after mallocs},
    (chunk.Sound ∨ chunk.used = 0 ∧ bytes ≤ chunk.capacity ∧ chunk.memory < bytes) →
    (∀ c ∈ after, c.Sound) →
    ∀ result ∈ allocLoop true bytes rounds before chunk after mallocs,
      ∃ block ∈ result.block, ¬ block.InMemory result.arena bytes := by
  induction rounds with
  | zero => intro before chunk after mallocs _ _ result h; cases h
  | succ rounds ih =>
    intro before chunk after mallocs hchunk hafter result h
    unfold allocLoop at h
    dsimp only at h
    split at h
    next hroom =>
      cases h
      refine ⟨_, rfl, fun ⟨_, c, hc, hmemory⟩ => ?_⟩
      simp only [ScratchArena.chunks, le_refl, getElem?_append_right, Nat.sub_self,
        getElem?_cons_zero, Option.some.injEq] at hc
      subst hc
      rcases hchunk with hchunk | ⟨-, -, hsmall⟩
      · unfold Fits maxAlign chunkHeader at hfits
        have hcapacity := hchunk.capacity_le
        have hlimit := hchunk.memory_le
        omega
      · dsimp only at hmemory
        omega
    split at h
    · refine ih (.inl (hafter _ mem_cons_self).reset) (fun c hc => ?_) result h
      exact hafter c (mem_cons_of_mem _ hc)
    split at h
    next hnone =>
      have hsome := allocateChunk_isSome hbytes hfits
      rw [hnone] at hsome
      cases hsome
    next hnew =>
      exact ih (allocateChunk_wraps hbytes hfits hnew) (fun c hc => absurd hc not_mem_nil) result h

end

theorem scratchAllocLaw_wraps (arena : SoundArena) (hbytes : count * itemSize < 2 ^ 64)
    (hfits : ¬ Fits (count * itemSize)) : ¬ ScratchAllocLaw arena count itemSize := by
  rintro ⟨rounds, result, hresult, -, hblock⟩
  suffices h : ∃ block ∈ result.block, ¬ block.InMemory result.arena (count * itemSize) by
    obtain ⟨block, hmem, hnot⟩ := h
    exact hnot (hblock block hmem)
  unfold arkshScratchAllocZero at hresult
  split at hresult
  next hzero =>
    have hproduct := Nat.mul_eq_zero.mpr hzero
    unfold Fits maxAlign chunkHeader at hfits
    omega
  rw [multiplySize_eq, if_pos hbytes] at hresult
  obtain ⟨⟨before, after⟩, hsound⟩ := arena
  dsimp only at hresult hsound
  split at hresult
  · refine allocLoop_wraps hbytes hfits (.inl (hsound _ (by simp))) (fun c hc => ?_) _ hresult
    exact hsound c (by simp [hc])
  · refine allocLoop_wraps hbytes hfits (.inl (hsound _ (by simp)).reset) (fun c hc => ?_) _ hresult
    exact hsound c (by simp [hc])
  · split at hresult
    next hnone =>
      have hsome := allocateChunk_isSome hbytes hfits
      rw [hnone] at hsome
      cases hsome
    next hnew =>
      exact allocLoop_wraps hbytes hfits (allocateChunk_wraps hbytes hfits hnew)
        (fun c hc => absurd hc not_mem_nil) _ hresult

/-- **An allocation ends, with a chunk at most, and its block lies in its chunk, exactly if its size
    is found to wrap or its sums with the alignment and the header do not.** -/
theorem scratchAllocLaw_iff (arena : SoundArena) (count itemSize : Nat) :
    ScratchAllocLaw arena count itemSize ↔
      2 ^ 64 ≤ count * itemSize ∨ count * itemSize + maxAlign + chunkHeader < 2 ^ 64 := by
  constructor
  · intro h
    by_contra hnot
    obtain ⟨hbytes, hfits⟩ := not_or.mp hnot
    exact scratchAllocLaw_wraps arena (not_le.mp hbytes) hfits h
  · intro h
    obtain ⟨result, hresult, hmallocs, hspec⟩ := arkshScratchAllocZero_spec true arena.sound
      (fun hlt => h.resolve_left (not_le.mpr hlt))
    refine ⟨_, result, hresult, hmallocs, fun block hblock => ?_⟩
    have hplaced := hspec.placed
    unfold ScratchResult.Placed at hplaced
    rw [hblock] at hplaced
    obtain ⟨-, -, hsize, capacity, hcapacity, hle⟩ := hplaced
    rw [ScratchArena.capacities, getElem?_map] at hcapacity
    obtain ⟨chunk, hchunk, rfl⟩ := Option.map_eq_some_iff.mp hcapacity
    have hmemory := (hspec.sound chunk (mem_of_getElem? hchunk)).capacity_le
    exact ⟨hsize, chunk, hchunk, by omega⟩

/-- **A block of 2^64 - 40 bytes in memory of 16.** -/
theorem not_scratchAllocLaw :
    ¬ ∀ arena count itemSize, ScratchAllocLaw arena count itemSize := fun h =>
  scratchAllocLaw_wraps ⟨⟨[], []⟩, by simp⟩ (by decide) (by unfold Fits; decide)
    (h ⟨⟨[], []⟩, by simp⟩ 1 (2 ^ 64 - 40))

end Arksh
