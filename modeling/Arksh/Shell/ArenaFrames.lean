/-
  Subject: `arksh_scratch_frame_begin` and `arksh_scratch_frame_end` of `src/arena.c`, with the
           allocations between them.

  The places in the arena are ordered, by chunk and then by offset. A frame goes back to its
  cursor at its end; a block is put behind the cursor. So what is live, frames and blocks, stands
  in its order of time (`FramesOrdered`).
-/
import Arksh.Shell.Arena
import Mathlib.Data.List.Pairwise

namespace Arksh

open List

/-! ## 1. Operations -/

inductive ScratchEntry where
  | frame (chunk : Option Nat) (used : Nat)
  | block (block : ScratchBlock)

structure ScratchState where
  arena : ScratchArena
  live : List ScratchEntry
  data : Nat → Nat → UInt8

def ScratchState.blocks (s : ScratchState) : List ScratchBlock :=
  s.live.filterMap fun
    | .block b => some b
    | .frame .. => none

def ScratchBlock.Contains (b : ScratchBlock) (chunk i : Nat) : Prop :=
  chunk = b.chunk ∧ b.offset ≤ i ∧ i < b.offset + b.size

def ScratchBlock.Apart (a b : ScratchBlock) : Prop :=
  ∀ chunk i, ¬ (a.Contains chunk i ∧ b.Contains chunk i)

instance : Std.Symm ScratchBlock.Apart := ⟨fun _ _ h chunk i hin => h chunk i hin.symm⟩

def arkshScratchFrameBegin (arena : ScratchArena) : ScratchEntry :=
  match arena.after with
  | [] => .frame none 0
  | chunk :: _ => .frame (some arena.before.length) chunk.used

def arkshScratchFrameEnd (arena : ScratchArena) (chunk : Option Nat) (used : Nat) : ScratchArena :=
  let reset := map fun c : ScratchChunk => { c with used := 0 }
  match chunk with
  | none => ⟨[], reset arena.chunks⟩
  | some i =>
    match arena.chunks.drop i with
    | [] => arena
    | c :: rest => ⟨arena.chunks.take i, { c with used } :: reset rest⟩

def innermostFrame : List ScratchEntry → Option (Option Nat × Nat × List ScratchEntry)
  | [] => none
  | .frame chunk used :: rest => some (chunk, used, rest)
  | .block _ :: rest => innermostFrame rest

structure ScratchRequest where
  count : Nat
  itemSize : Nat
  fits : Fits (count * itemSize)

inductive ScratchOp where
  | frameBegin
  | allocZero (request : ScratchRequest) (available : Bool)
  | frameEnd
  /-- A byte is written to a block, by those that hold it. -/
  | store (block : ScratchBlock) (i : Nat) (byte : UInt8)

def writeBytes (data : Nat → Nat → UInt8) (place : Nat → Nat → Prop)
    [∀ chunk i, Decidable (place chunk i)] (byte : UInt8) (chunk i : Nat) : UInt8 :=
  if place chunk i then byte else data chunk i

instance (b : ScratchBlock) (chunk i : Nat) : Decidable (b.Contains chunk i) :=
  inferInstanceAs (Decidable (_ ∧ _ ∧ _))

/-- An operation; `none` for the end of a frame that is not open, or a write to no live block. -/
def scratchStep (s : ScratchState) : ScratchOp → Option ScratchState
  | .frameBegin => some { s with live := arkshScratchFrameBegin s.arena :: s.live }
  | .allocZero request available =>
    (arkshScratchAllocZero available (s.arena.chunks.length + 2) s.arena request.count
      request.itemSize).map fun result =>
        match result.block with
        | none => { s with arena := result.arena }
        | some b => ⟨result.arena, .block b :: s.live, writeBytes s.data b.Contains 0⟩
  | .frameEnd => (innermostFrame s.live).map fun (chunk, used, rest) =>
      ⟨arkshScratchFrameEnd s.arena chunk used, rest, s.data⟩
  | .store b i byte =>
    if b ∈ s.blocks ∧ i < b.size then
      let place chunk j := chunk = b.chunk ∧ j = b.offset + i
      some { s with data := writeBytes s.data place byte }
    else none

def scratchRun : ScratchState → List ScratchOp → Option ScratchState
  | s, [] => some s
  | s, op :: ops => (scratchStep s op).bind fun s' => scratchRun s' ops

/-! ## 2. What is meant -/

/-- The live blocks are apart and inside their chunks; an allocation ends, and its block is zero; a
    step leaves the blocks live, but for the end of their frame, and their bytes as they are, but
    for a write to them. -/
structure ScratchSeparation (s : ScratchState) : Prop where
  disjoint : s.blocks.Pairwise ScratchBlock.Apart
  inside : ∀ b ∈ s.blocks, b.InCapacity s.arena.capacities
  allocated : ∀ request available, ∃ s' ∈ scratchStep s (.allocZero request available),
    s'.live = s.live ∨ ∃ b, s'.live = .block b :: s.live ∧
      b.size = request.count * request.itemSize ∧
        ∀ chunk i, b.Contains chunk i → s'.data chunk i = 0
  live : ∀ op, ∀ s' ∈ scratchStep s op, op ≠ .frameEnd → s.live <:+ s'.live
  kept : ∀ op, ∀ s' ∈ scratchStep s op, ∀ b ∈ s.blocks, (∀ i byte, op ≠ .store b i byte) →
    ∀ chunk i, b.Contains chunk i → s'.data chunk i = s.data chunk i

/-- It holds in every state that a properly nested sequence of operations leads to. -/
def ScratchFrames (data : Nat → Nat → UInt8) (ops : List ScratchOp) : Prop :=
  ∀ s ∈ scratchRun ⟨⟨[], []⟩, [], data⟩ ops, ScratchSeparation s

/-! ## 3. The order of what is live -/

def ScratchEntry.start : ScratchEntry → ℕ ×ₗ ℕ
  | .frame chunk used => toLex (chunk.getD 0, used)
  | .block b => b.start

def ScratchEntry.stop : ScratchEntry → ℕ ×ₗ ℕ
  | .frame chunk used => toLex (chunk.getD 0, used)
  | .block b => b.stop

def ScratchEntry.InChunks (capacities : List Nat) : ScratchEntry → Prop
  | .frame none used => used = 0
  | .frame (some chunk) used => ∃ capacity, capacities[chunk]? = some capacity ∧ used ≤ capacity
  | .block b => b.InCapacity capacities

structure FramesOrdered (s : ScratchState) : Prop where
  sound : ∀ c ∈ s.arena.chunks, c.Sound
  current : s.arena.after = [] → s.arena.before = []
  ordered : s.live.Pairwise fun newer older => older.stop ≤ newer.start
  below : ∀ e ∈ s.live, e.stop ≤ s.arena.cursor
  inChunks : ∀ e ∈ s.live, e.InChunks s.arena.capacities

variable {s s' : ScratchState}

theorem ScratchEntry.InChunks.mono {e : ScratchEntry} {capacities capacities' : List Nat}
    (h : e.InChunks capacities) (hle : capacities <+: capacities') : e.InChunks capacities' := by
  obtain ⟨rest, rfl⟩ := hle
  have hget : ∀ {i capacity : Nat}, capacities[i]? = some capacity →
      (capacities ++ rest)[i]? = some capacity := by
    intro i capacity hi
    obtain ⟨hlt, -⟩ := List.getElem?_eq_some_iff.mp hi
    rw [getElem?_append_left hlt, hi]
  match e, h with
  | .frame none _, h => exact h
  | .frame (some _) _, ⟨capacity, hi, hused⟩ => exact ⟨capacity, hget hi, hused⟩
  | .block _, ⟨capacity, hi, hend⟩ => exact ⟨capacity, hget hi, hend⟩

theorem frameBegin_ordered (h : FramesOrdered s) :
    FramesOrdered { s with live := arkshScratchFrameBegin s.arena :: s.live } := by
  have hentry : (arkshScratchFrameBegin s.arena).start = s.arena.cursor ∧
      (arkshScratchFrameBegin s.arena).stop = s.arena.cursor ∧
      (arkshScratchFrameBegin s.arena).InChunks s.arena.capacities := by
    have hsound := h.sound
    unfold arkshScratchFrameBegin ScratchArena.cursor ScratchArena.capacities
    unfold ScratchArena.chunks at hsound ⊢
    cases hafter : s.arena.after with
    | nil => exact ⟨rfl, rfl, rfl⟩
    | cons chunk after =>
      rw [hafter] at hsound
      exact ⟨rfl, rfl, chunk.capacity, by simp, (hsound chunk (by simp)).used_le⟩
  obtain ⟨hstart, hstop, hin⟩ := hentry
  refine ⟨h.sound, h.current, pairwise_cons.mpr ⟨fun e he => ?_, h.ordered⟩, fun e he => ?_,
    fun e he => ?_⟩
  · rw [hstart]; exact h.below e he
  · rcases mem_cons.mp he with rfl | he
    · exact hstop.le
    · exact h.below e he
  · rcases mem_cons.mp he with rfl | he
    · exact hin
    · exact h.inChunks e he

theorem allocZero_ordered {bytes : Nat} {result : ScratchResult} (h : FramesOrdered s)
    (hspec : AllocSpec bytes s.arena result) (data : Nat → Nat → UInt8) :
    FramesOrdered ⟨result.arena, (result.block.map .block).toList ++ s.live, data⟩ := by
  have hplaced := hspec.placed
  have hcurrent : result.arena.after = [] → result.arena.before = [] := fun hnil =>
    hspec.current.elim (absurd hnil) fun heq => heq ▸ h.current (heq ▸ hnil)
  unfold ScratchResult.Placed at hplaced
  cases hblock : result.block with
  | none =>
    rw [hblock] at hplaced
    exact ⟨hspec.sound, hcurrent, h.ordered, fun e he => (h.below e he).trans hplaced,
      fun e he => (h.inChunks e he).mono hspec.capacities⟩
  | some b =>
    rw [hblock] at hplaced
    obtain ⟨hstart, hstop, -, hin⟩ := hplaced
    have hle : b.start ≤ b.stop := Prod.Lex.toLex_le_toLex.mpr (.inr ⟨rfl, Nat.le_add_right ..⟩)
    refine ⟨hspec.sound, hcurrent, pairwise_cons.mpr ⟨fun e he => (h.below e he).trans hstart,
      h.ordered⟩, fun e he => ?_, fun e he => ?_⟩
    · rcases mem_cons.mp he with rfl | he
      · exact hstop.ge
      · exact ((h.below e he).trans hstart).trans (hle.trans hstop.ge)
    · rcases mem_cons.mp he with rfl | he
      · exact hin
      · exact (h.inChunks e he).mono hspec.capacities

variable {chunk : Option Nat} {used : Nat}

theorem innermostFrame_eq {live rest : List ScratchEntry}
    (h : innermostFrame live = some (chunk, used, rest)) :
    ∃ blocks, live = blocks ++ .frame chunk used :: rest := by
  induction live with
  | nil => cases h
  | cons e live ih =>
    cases e with
    | frame => cases h; exact ⟨[], rfl⟩
    | block b =>
      obtain ⟨blocks, rfl⟩ := ih h
      exact ⟨.block b :: blocks, rfl⟩

theorem frameEnd_spec {arena : ScratchArena} (hsound : ∀ c ∈ arena.chunks, c.Sound)
    (hin : (ScratchEntry.frame chunk used).InChunks arena.capacities) :
    (∀ c ∈ (arkshScratchFrameEnd arena chunk used).chunks, c.Sound) ∧
      ((arkshScratchFrameEnd arena chunk used).after = [] →
        (arkshScratchFrameEnd arena chunk used).before = []) ∧
      (arkshScratchFrameEnd arena chunk used).cursor = toLex (chunk.getD 0, used) ∧
      (arkshScratchFrameEnd arena chunk used).capacities = arena.capacities := by
  cases chunk with
  | none =>
    refine ⟨fun c hc => ?_, fun _ => rfl, ?_, ?_⟩
    · obtain ⟨old, hold, rfl⟩ := mem_map.mp hc
      exact (hsound old hold).reset
    · obtain rfl : used = 0 := hin
      unfold arkshScratchFrameEnd ScratchArena.cursor
      cases arena.chunks <;> rfl
    · simp [arkshScratchFrameEnd, ScratchArena.capacities, ScratchArena.chunks, Function.comp_def]
  | some i =>
    obtain ⟨capacity, hcapacity, hused⟩ := hin
    rw [ScratchArena.capacities, getElem?_map] at hcapacity
    obtain ⟨c, hc, rfl⟩ := Option.map_eq_some_iff.mp hcapacity
    obtain ⟨hlt, hget⟩ := List.getElem?_eq_some_iff.mp hc
    have hdrop := drop_eq_getElem_cons hlt
    rw [hget] at hdrop
    have hend : arkshScratchFrameEnd arena (some i) used = ⟨arena.chunks.take i,
        { c with used } :: (arena.chunks.drop (i + 1)).map fun c => { c with used := 0 }⟩ := by
      simp only [arkshScratchFrameEnd, hdrop]
    have hchunks := take_append_drop i arena.chunks
    rw [hdrop] at hchunks
    rw [hend]
    refine ⟨fun d hd => ?_, fun hnil => absurd hnil (cons_ne_nil _ _), ?_, ?_⟩
    · rcases mem_append.mp hd with hd | hd
      · exact hsound d (mem_of_mem_take hd)
      rcases mem_cons.mp hd with rfl | hd
      · have hold := hsound c (mem_of_getElem? hc)
        exact ⟨hused, hold.2, hold.3⟩
      · obtain ⟨old, hold, rfl⟩ := mem_map.mp hd
        exact (hsound old (mem_of_mem_drop hold)).reset
    · simp [ScratchArena.cursor, hlt.le]
    · conv_rhs => rw [ScratchArena.capacities, ← hchunks]
      simp [ScratchArena.capacities, ScratchArena.chunks, Function.comp_def]

theorem frameEnd_ordered {newer rest : List ScratchEntry} (h : FramesOrdered s)
    (hlive : s.live = newer ++ .frame chunk used :: rest) :
    FramesOrdered ⟨arkshScratchFrameEnd s.arena chunk used, rest, s.data⟩ := by
  have hrest : ∀ e ∈ ScratchEntry.frame chunk used :: rest, e.InChunks s.arena.capacities :=
    fun e he => h.inChunks e (hlive ▸ mem_append_right _ he)
  obtain ⟨hsound, hcurrent, hcursor, hcapacities⟩ :=
    frameEnd_spec h.sound (hrest _ mem_cons_self)
  have hordered := h.ordered
  rw [hlive] at hordered
  obtain ⟨hbelow, hpairs⟩ := pairwise_cons.mp (pairwise_append.mp hordered).2.1
  exact ⟨hsound, hcurrent, hpairs, fun e he => (hbelow e he).trans hcursor.ge,
    fun e he => hcapacities.symm ▸ hrest e (mem_cons_of_mem _ he)⟩

/-! ## 4. Runs -/

theorem scratchStep_allocZero (h : FramesOrdered s) (request : ScratchRequest) (available : Bool) :
    ∃ result, AllocSpec (request.count * request.itemSize) s.arena result ∧
      scratchStep s (.allocZero request available) = some
        ⟨result.arena, (result.block.map .block).toList ++ s.live,
          result.block.elim s.data fun b => writeBytes s.data b.Contains 0⟩ := by
  obtain ⟨result, hresult, -, hspec⟩ :=
    arkshScratchAllocZero_spec available h.sound fun _ => request.fits
  refine ⟨result, hspec, ?_⟩
  rw [scratchStep, hresult]
  cases hblock : result.block <;> simp [hblock]

theorem scratchStep_ordered (h : FramesOrdered s) {op : ScratchOp} (hs : s' ∈ scratchStep s op) :
    FramesOrdered s' := by
  cases op with
  | frameBegin => cases hs; exact frameBegin_ordered h
  | allocZero request available =>
    obtain ⟨result, hspec, heq⟩ := scratchStep_allocZero h request available
    obtain rfl := Option.some.inj (heq.symm.trans hs)
    exact allocZero_ordered h hspec _
  | frameEnd =>
    obtain ⟨⟨chunk, used, rest⟩, hframe, rfl⟩ := Option.map_eq_some_iff.mp hs
    obtain ⟨newer, hlive⟩ := innermostFrame_eq hframe
    exact frameEnd_ordered h hlive
  | store b i byte =>
    obtain ⟨-, heq⟩ := Option.ite_none_right_eq_some.mp hs
    cases heq
    exact ⟨h.sound, h.current, h.ordered, h.below, h.inChunks⟩

theorem scratchRun_ordered {ops : List ScratchOp} (h : FramesOrdered s)
    (hs : s' ∈ scratchRun s ops) : FramesOrdered s' := by
  induction ops generalizing s with
  | nil => cases hs; exact h
  | cons op ops ih =>
    obtain ⟨next, hnext, hrest⟩ := Option.bind_eq_some_iff.mp hs
    exact ih (scratchStep_ordered h hnext) hrest

/-! ## 5. The law -/

theorem mem_blocks {b : ScratchBlock} : b ∈ s.blocks ↔ .block b ∈ s.live := by
  simp only [ScratchState.blocks, mem_filterMap]
  constructor
  · rintro ⟨e, he, hb⟩
    cases e with
    | frame => cases hb
    | block b' => cases hb; exact he
  · intro h; exact ⟨_, h, rfl⟩

theorem FramesOrdered.disjoint (h : FramesOrdered s) : s.blocks.Pairwise ScratchBlock.Apart := by
  refine pairwise_filterMap.mpr (h.ordered.imp ?_)
  rintro newer older hle a ha b hb chunk i ⟨⟨hca, hia, -⟩, hcb, -, hib⟩
  cases newer with
  | frame => cases ha
  | block a' =>
    cases older with
    | frame => cases hb
    | block b' =>
      cases ha; cases hb
      rcases Prod.Lex.toLex_le_toLex.mp hle with hlt | ⟨-, hle⟩
      · dsimp only at hlt; omega
      · dsimp only at hle; omega

theorem FramesOrdered.separation (h : FramesOrdered s) : ScratchSeparation s := by
  refine ⟨h.disjoint, fun b hb => h.inChunks _ (mem_blocks.mp hb), fun request available => ?_,
    fun op s' hs hop => ?_, fun op s' hs b hb hop chunk i hin => ?_⟩
  · obtain ⟨result, hspec, hs⟩ := scratchStep_allocZero h request available
    refine ⟨_, hs, ?_⟩
    have hplaced := hspec.placed
    unfold ScratchResult.Placed at hplaced
    cases hblock : result.block with
    | none => exact .inl rfl
    | some b =>
      rw [hblock] at hplaced
      exact .inr ⟨b, rfl, hplaced.2.2.1, fun chunk i hin => if_pos hin⟩
  · cases op with
    | frameBegin => cases hs; exact suffix_cons _ _
    | allocZero request available =>
      obtain ⟨result, -, heq⟩ := scratchStep_allocZero h request available
      obtain rfl := Option.some.inj (heq.symm.trans hs)
      exact suffix_append _ _
    | frameEnd => exact absurd rfl hop
    | store b i byte =>
      obtain ⟨-, heq⟩ := Option.ite_none_right_eq_some.mp hs
      cases heq
      exact suffix_rfl
  · cases op with
    | frameBegin => cases hs; rfl
    | allocZero request available =>
      have hs' := scratchStep_ordered h hs
      obtain ⟨result, -, heq⟩ := scratchStep_allocZero h request available
      obtain rfl := Option.some.inj (heq.symm.trans hs)
      cases hblock : result.block with
      | none => rfl
      | some new =>
        have hpairs := hs'.disjoint
        simp only [ScratchState.blocks, hblock, Option.map_some, Option.toList_some,
          singleton_append, filterMap_cons, pairwise_cons] at hpairs
        exact if_neg fun hnew => hpairs.1 b hb chunk i ⟨hnew, hin⟩
    | frameEnd =>
      obtain ⟨_, -, rfl⟩ := Option.map_eq_some_iff.mp hs
      rfl
    | store b' j byte =>
      obtain ⟨⟨hb', hj⟩, heq⟩ := Option.ite_none_right_eq_some.mp hs
      cases heq
      refine if_neg fun ⟨hchunk, hi⟩ => ?_
      have hne : b ≠ b' := fun heq => hop j byte (heq ▸ rfl)
      have hcontains : b'.Contains chunk i := ⟨hchunk, by omega, by omega⟩
      exact h.disjoint.forall hb hb' hne chunk i ⟨hin, hcontains⟩

/-- **In every nested sequence of frames, allocations and writes, the live blocks are disjoint,
    inside their chunks, zero at first, and written by those that hold them only.** -/
theorem scratchFrames (data : Nat → Nat → UInt8) (ops : List ScratchOp) :
    ScratchFrames data ops := by
  intro s hs
  have hempty : FramesOrdered ⟨⟨[], []⟩, [], data⟩ := by
    refine ⟨?_, fun _ => rfl, Pairwise.nil, ?_, ?_⟩ <;> simp [ScratchArena.chunks]
  exact (scratchRun_ordered hempty hs).separation

end Arksh
