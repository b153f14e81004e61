/-
  Subject: `arksh_platform_resolve_path` of `src/platform.c` on POSIX.

  The path is copied into a buffer of 1024 bytes, in which backslashes become slashes; it is cut
  into components in a token of 128 bytes; the components go on a stack of 64. Every caller passes
  a buffer of `ARKSH_MAX_PATH` bytes for the result.
-/
import Arksh.Lib.LexicalPath
import Arksh.Object.Value

namespace Arksh

open CText LexicalPath List

/-! ## 1. The code -/

/-- The path without its `.` and `..`: the loop of `normalize_path` over the segments. -/
def normalizeSegments (absolute : Bool) : List Text → List Text → Option (List Text)
  | [], segments => some segments
  | token :: tokens, segments =>
    if token = [] ∨ token = ['.'] then normalizeSegments absolute tokens segments
    else if token = ['.', '.'] then
      match segments.getLast? with
      | some last =>
        if last ≠ ['.', '.'] then normalizeSegments absolute tokens segments.dropLast
        else if absolute then normalizeSegments absolute tokens segments
        else if 64 ≤ segments.length then none
        else normalizeSegments absolute tokens (segments ++ [token])
      | none =>
        if absolute then normalizeSegments absolute tokens segments
        else normalizeSegments absolute tokens (segments ++ [token])
    else if 64 ≤ segments.length then none
    else normalizeSegments absolute tokens (segments ++ [token])

def normalizePath (size : Nat) (input : Text) : Option Text :=
  let temp := (copyString arkshMaxPath input).map fun c => if c = '\\' then '/' else c
  let absolute := temp.head? = some '/'
  let tokens := (temp.splitOn '/').map (copyString arkshMaxName)
  (normalizeSegments absolute tokens []).map fun segments =>
    copyString size <|
      if absolute then '/' :: List.intercalate ['/'] segments
      else if segments = [] then ['.'] else List.intercalate ['/'] segments

def arkshPlatformResolvePath (cwd input : Text) : Option Text :=
  if input = [] then some (copyString arkshMaxPath cwd)
  else if input.head? = some '/' then normalizePath arkshMaxPath input
  else if input = ['.'] then some (copyString arkshMaxPath cwd)
  else normalizePath arkshMaxPath (copyString (arkshMaxPath * 2) (cwd ++ '/' :: input))

/-! ## 2. The loop over the components -/

/-- The number of segments that `normalize_path` has room for. -/
def maxSegments : Nat := 64

def cutComponent (c : Text) : Text := copyString arkshMaxName c

/-- However many of the components are read, the stack has room for what is left of them. -/
def SegmentsFit (stack cs : List Text) : Prop :=
  ∀ front, front <+: cs → (front.foldl push stack).length ≤ maxSegments

variable {stack cs : List Text}

theorem segmentsFit_nil : SegmentsFit stack [] ↔ stack.length ≤ maxSegments := by
  constructor
  · intro h; exact h [] nil_prefix
  · intro h front hfront
    obtain rfl : front = [] := prefix_nil.mp hfront
    exact h

variable {c t input cwd : Text}

theorem segmentsFit_cons : SegmentsFit stack (c :: cs) ↔
      stack.length ≤ maxSegments ∧ SegmentsFit (push stack c) cs := by
  constructor
  · intro h
    refine ⟨h [] nil_prefix, ?_⟩
    intro front hfront
    exact h (c :: front) (cons_prefix_cons.mpr ⟨rfl, hfront⟩)
  · intro ⟨hstack, htail⟩ front hfront
    cases front with
    | nil => exact hstack
    | cons d front => obtain ⟨rfl, hrest⟩ := cons_prefix_cons.mp hfront; exact htail front hrest

theorem SegmentsFit.head (h : SegmentsFit stack cs) : stack.length ≤ maxSegments := h [] nil_prefix

theorem cutComponent_eq_short {d : Text} (hd : d.length < 127) : cutComponent c = d ↔ c = d := by
  have hval : cutComponent c = c.take 127 := rfl
  rw [hval]
  constructor
  · intro h
    have hlen := congrArg List.length h
    rw [length_take] at hlen
    rw [← h, take_of_length_le (by omega)]
  · rintro rfl; exact take_of_length_le (by omega)

theorem getLast?_cut_ne {last : Text} (hstack : ∀ d ∈ stack, NormalComponent d)
    (h : (stack.map cutComponent).getLast? = some last) : last ≠ ['.', '.'] := by
  rw [getLast?_map] at h
  obtain ⟨d, hd, rfl⟩ := Option.map_eq_some_iff.mp h
  have hnormal := hstack d (mem_of_getLast? hd)
  exact fun he => hnormal.ne_dotdot ((cutComponent_eq_short (by decide)).mp he)

theorem normalizeSegments_cons {tokens : List Text} (hstack : ∀ d ∈ stack, NormalComponent d)
    (hlen : stack.length ≤ maxSegments) :
    normalizeSegments true (cutComponent c :: tokens) (stack.map cutComponent) =
      if (push stack c).length ≤ maxSegments then
        normalizeSegments true tokens ((push stack c).map cutComponent) else none := by
  have hnil : cutComponent c = [] ↔ c = [] := cutComponent_eq_short (by decide)
  have hdot : cutComponent c = ['.'] ↔ c = ['.'] := cutComponent_eq_short (by decide)
  have hup : cutComponent c = ['.', '.'] ↔ c = ['.', '.'] := cutComponent_eq_short (by decide)
  rw [normalizeSegments]
  simp only [hnil, hdot, hup]
  by_cases hskip : c = [] ∨ c = ['.']
  · rw [if_pos hskip]; simp [push, hskip, hlen]
  rw [if_neg hskip]
  by_cases hc : c = ['.', '.']
  · have hpush : push stack c = stack.dropLast := by simp [push, hc]
    have hdrop : (push stack c).length ≤ maxSegments := by rw [hpush, length_dropLast]; omega
    rw [if_pos hc, if_pos hdrop, hpush]
    cases hlast : (stack.map cutComponent).getLast? with
    | none =>
      have hempty : stack = [] := by simpa using hlast
      simp [hempty]
    | some last => have hne := getLast?_cut_ne hstack hlast; simp [hne, map_dropLast]
  · have hpush : push stack c = stack ++ [c] := by simp [push, hskip, hc]
    rw [if_neg hc, hpush, length_map, length_append, length_singleton]
    by_cases hroom : 64 ≤ stack.length
    · rw [if_pos hroom, if_neg (by simp only [maxSegments]; omega)]
    · rw [if_neg hroom, if_pos (by simp only [maxSegments]; omega)]; simp

/-- **The loop over the components is the stack of `LexicalPath`.** -/
theorem normalizeSegments_of_fits (hcs : ∀ c ∈ cs, '/' ∉ c) :
    ∀ {stack : List Text}, (∀ d ∈ stack, NormalComponent d) → SegmentsFit stack cs →
      normalizeSegments true (cs.map cutComponent) (stack.map cutComponent) =
        some ((cs.foldl push stack).map cutComponent) := by
  induction cs with
  | nil => intro stack _ _; rfl
  | cons c cs ih =>
    intro stack hstack hfit
    obtain ⟨hlen, htail⟩ := segmentsFit_cons.mp hfit
    have hpush := push_normal hstack (hcs c mem_cons_self)
    rw [map_cons, normalizeSegments_cons hstack hlen, if_pos htail.head,
      ih (fun d hd => hcs d (mem_cons_of_mem _ hd)) hpush htail, foldl_cons]

theorem normalizeSegments_of_not_fits (hcs : ∀ c ∈ cs, '/' ∉ c) :
    ∀ {stack : List Text}, (∀ d ∈ stack, NormalComponent d) → stack.length ≤ maxSegments →
      ¬ SegmentsFit stack cs →
      normalizeSegments true (cs.map cutComponent) (stack.map cutComponent) = none := by
  induction cs with
  | nil => intro stack _ hlen hfit; exact absurd (segmentsFit_nil.mpr hlen) hfit
  | cons c cs ih =>
    intro stack hstack hlen hfit
    have hpush := push_normal hstack (hcs c mem_cons_self)
    rw [map_cons, normalizeSegments_cons hstack hlen]
    split
    · rename_i hroom
      exact ih (fun d hd => hcs d (mem_cons_of_mem _ hd)) hpush hroom
        fun htail => hfit (segmentsFit_cons.mpr ⟨hlen, htail⟩)
    · rfl

/-! ## 3. Reading a path -/

/-- The path as the code reads it: so much of it as fits, with backslashes as slashes. -/
def readPath (path : Text) : Text :=
  (copyString arkshMaxPath path).map fun c => if c = '\\' then '/' else c

def PathFits (path : Text) : Prop := SegmentsFit [] ((readPath path).splitOn '/')

/-- Reading the path as the code does leaves its normal form as it is. -/
def ReadsAlike (path : Text) : Prop :=
  (components (readPath path)).map cutComponent = components path

theorem readPath_slash (t : Text) : ∃ u, readPath ('/' :: t) = '/' :: u ∧ u.length < 1023 := by
  refine ⟨(t.take 1022).map fun c => if c = '\\' then '/' else c, ?_, ?_⟩
  · simp [readPath, copyString, arkshMaxPath]
  · rw [length_map, length_take]; omega

theorem backslash_notMem_readPath (path : Text) : '\\' ∉ readPath path := by
  intro h
  obtain ⟨c, -, hc⟩ := mem_map.mp h
  split at hc
  · exact absurd hc (by decide)
  · exact absurd hc ‹_›

theorem readPath_of_plain {path : Text} (hlen : path.length < arkshMaxPath)
    (hplain : '\\' ∉ path) : readPath path = path := by
  rw [readPath, copyString_of_lt hlen]
  have hid : ∀ c ∈ path, (if c = '\\' then '/' else c) = c := by
    intro c hc
    have hne : c ≠ '\\' := fun he => hplain (he ▸ hc)
    rw [if_neg hne]
  exact (map_congr_left hid).trans (map_id _)

theorem cutComponent_normal (h : NormalComponent c) : NormalComponent (cutComponent c) where
  ne_nil := fun he => h.ne_nil ((cutComponent_eq_short (by decide)).mp he)
  ne_dot := fun he => h.ne_dot ((cutComponent_eq_short (by decide)).mp he)
  ne_dotdot := fun he => h.ne_dotdot ((cutComponent_eq_short (by decide)).mp he)
  slash_notMem := fun hm => h.slash_notMem (mem_of_mem_take hm)

theorem map_cut_normal (h : ∀ c ∈ cs, NormalComponent c) :
    ∀ c ∈ cs.map cutComponent, NormalComponent c := by
  intro c hc
  obtain ⟨d, hd, rfl⟩ := mem_map.mp hc
  exact cutComponent_normal (h d hd)

theorem weight_map_cut (cs : List Text) : weight (cs.map cutComponent) ≤ weight cs := by
  induction cs with
  | nil => exact Nat.le_refl _
  | cons c cs ih =>
    have hc : (cutComponent c).length ≤ c.length := by simp [cutComponent, copyString]
    simp only [weight, map_cons, sum_cons] at ih ⊢
    omega

theorem length_render_read (t : Text) :
    (render ((components (readPath ('/' :: t))).map cutComponent)).length < arkshMaxPath := by
  obtain ⟨u, hu, hlen⟩ := readPath_slash t
  have hrender := length_render_le ((components u).map cutComponent)
  have hcut := weight_map_cut (components u)
  have hfold := weight_foldl_push (u.splitOn '/') []
  have hsplit := weight_splitOn u
  have hnil : weight [] = 0 := rfl
  have hmax : arkshMaxPath = 1024 := rfl
  rw [hu, components_slash]
  rw [components] at hrender hcut ⊢
  omega

theorem normalizePath_eq : normalizePath arkshMaxPath ('/' :: t) =
      (normalizeSegments true (((readPath ('/' :: t)).splitOn '/').map cutComponent) []).map
        fun segments => copyString arkshMaxPath (render segments) := by
  rfl

/-- **`normalize_path` makes the normal form of the path as it is read, where the stack is deep
    enough.** -/
theorem normalizePath_of_fits (h : PathFits ('/' :: t)) :
    normalizePath arkshMaxPath ('/' :: t) =
      some (render ((components (readPath ('/' :: t))).map cutComponent)) := by
  have hloop := normalizeSegments_of_fits (fun c => slash_notMem_of_mem_splitOn)
    (fun d hd => absurd hd not_mem_nil) h
  rw [map_nil] at hloop
  have hlen := length_render_read t
  rw [normalizePath_eq, hloop, Option.map_some]
  exact congrArg some (copyString_of_lt hlen)

theorem normalizePath_of_not_fits (h : ¬ PathFits ('/' :: t)) :
    normalizePath arkshMaxPath ('/' :: t) = none := by
  have hloop := normalizeSegments_of_not_fits (fun c => slash_notMem_of_mem_splitOn)
    (fun d hd => absurd hd not_mem_nil) (Nat.zero_le _) h
  rw [map_nil] at hloop
  rw [normalizePath_eq, hloop, Option.map_none]

/-! ## 4. Resolving -/

def resolvedPath (cwd input : Text) : Text :=
  if input.head? = some '/' then input else cwd ++ '/' :: input

/-- Resolving a path fails, or gives its lexical normal form, a normal path that resolves to itself
    from anywhere. -/
def ResolvesLaw (cwd input : Text) : Prop :=
  arkshPlatformResolvePath cwd input = none ∨
    ∃ result, arkshPlatformResolvePath cwd input = some result ∧
      result = normalForm (resolvedPath cwd input) ∧ IsNormal result ∧
      ∀ cwd', arkshPlatformResolvePath cwd' result = some result

/-- Where the law holds. The directory itself is not read when it is what the input stands for, but
    later it is. -/
def ReadFaithfully (cwd input : Text) : Prop :=
  if input = [] ∨ input = ['.'] then PathFits cwd ∧ ReadsAlike cwd
  else PathFits (resolvedPath cwd input) → ReadsAlike (resolvedPath cwd input)

theorem resolvePath_absolute (cwd t : Text) :
    arkshPlatformResolvePath cwd ('/' :: t) = normalizePath arkshMaxPath ('/' :: t) := by
  simp [arkshPlatformResolvePath]

theorem readPath_candidate (path : Text) :
    readPath (copyString (arkshMaxPath * 2) path) = readPath path := by
  have htake : copyString arkshMaxPath (copyString (arkshMaxPath * 2) path) =
      copyString arkshMaxPath path := by
    simp [copyString, take_take, arkshMaxPath]
  rw [readPath, readPath, htake]

theorem normalizePath_candidate (path : Text) :
    normalizePath arkshMaxPath (copyString (arkshMaxPath * 2) path) =
      normalizePath arkshMaxPath path := by
  have hread := readPath_candidate path
  unfold readPath at hread
  unfold normalizePath
  rw [hread]

theorem resolvePath_here (h : input = [] ∨ input = ['.']) (cwd : Text) :
    arkshPlatformResolvePath cwd input = some (copyString arkshMaxPath cwd) := by
  rcases h with rfl | rfl
  · rfl
  · simp [arkshPlatformResolvePath]

theorem resolvePath_other (h : ¬ (input = [] ∨ input = ['.'])) :
    arkshPlatformResolvePath cwd input = normalizePath arkshMaxPath (resolvedPath cwd input) := by
  have hne : input ≠ [] ∧ input ≠ ['.'] := by simpa using h
  by_cases hslash : input.head? = some '/'
  · simp [arkshPlatformResolvePath, resolvedPath, hne.1, hslash]
  · simp [arkshPlatformResolvePath, resolvedPath, hne.1, hne.2, hslash, normalizePath_candidate]

theorem resolvedPath_absolute (hcwd : IsNormal cwd) (input : Text) :
    ∃ t, resolvedPath cwd input = '/' :: t := by
  unfold resolvedPath
  split
  · rename_i hslash
    cases input with
    | nil => cases hslash
    | cons c t =>
      obtain rfl : c = '/' := by simpa using hslash
      exact ⟨t, rfl⟩
  · obtain ⟨u, rfl⟩ := hcwd.head; exact ⟨_, rfl⟩

theorem normalForm_here (hcwd : IsNormal cwd) (h : input = [] ∨ input = ['.']) :
    normalForm (resolvedPath cwd input) = cwd := by
  have hslash : input.head? ≠ some '/' := by
    rcases h with rfl | rfl <;> simp
  rw [resolvedPath, if_neg hslash]
  calc normalForm (cwd ++ '/' :: input)
      = normalForm cwd := normalForm_eq_iff.mpr (components_append_skip h)
    _ = cwd := isNormal_iff.mp hcwd

theorem segmentsFit_render (hcs : ∀ c ∈ cs, NormalComponent c) (hlen : cs.length ≤ maxSegments) :
    SegmentsFit [] ((render cs).splitOn '/') := by
  have hsplit : (render cs).splitOn '/' = [] :: (['/'].intercalate cs).splitOn '/' := by
    rw [render, splitOn_cons_eq_if_modifyHead]
    simp
  rw [hsplit, segmentsFit_cons]
  refine ⟨Nat.zero_le _, ?_⟩
  have hpush : push [] [] = ([] : List Text) := by simp [push]
  rw [hpush]
  by_cases hnil : cs = []
  · subst hnil
    have hempty : (['/'].intercalate ([] : List Text)).splitOn '/' = [[]] := by simp
    rw [hempty, segmentsFit_cons, hpush, segmentsFit_nil]
    exact ⟨Nat.zero_le _, Nat.zero_le _⟩
  · rw [splitOn_intercalate '/' (fun c hc => (hcs c hc).slash_notMem) hnil]
    intro front hfront
    have hnormal : ∀ c ∈ front, NormalComponent c := fun c hc => hcs c (hfront.subset hc)
    have hle := hfront.length_le
    rw [foldl_push_of_normal hnormal, nil_append]
    omega

theorem normalizePath_again (h : PathFits ('/' :: t)) :
    normalizePath arkshMaxPath (render ((components (readPath ('/' :: t))).map cutComponent)) =
      some (render ((components (readPath ('/' :: t))).map cutComponent)) := by
  have hnormal := map_cut_normal (components_normal (t := readPath ('/' :: t)))
  have hshort : ∀ c ∈ (components (readPath ('/' :: t))).map cutComponent, cutComponent c = c := by
    intro c hc
    obtain ⟨d, -, rfl⟩ := mem_map.mp hc
    exact copyString_of_lt (copyString_length_lt (by decide) d)
  have hcount : ((components (readPath ('/' :: t))).map cutComponent).length ≤ maxSegments := by
    rw [length_map]
    exact h _ (prefix_refl _)
  have hplain : '\\' ∉ render ((components (readPath ('/' :: t))).map cutComponent) := by
    intro hm
    rcases mem_render hm with hm | ⟨c, hc, hm⟩
    · exact absurd hm (by decide)
    · obtain ⟨d, hd, rfl⟩ := mem_map.mp hc
      exact backslash_notMem_readPath _
        (mem_of_mem_components hd (mem_of_mem_take hm))
  have hread := readPath_of_plain (length_render_read t) hplain
  generalize (components (readPath ('/' :: t))).map cutComponent = cs at *
  have hfit : PathFits (render cs) := by
    rw [PathFits, hread]
    exact segmentsFit_render hnormal hcount
  rw [show render cs = '/' :: ['/'].intercalate cs from rfl] at hfit hread ⊢
  rw [normalizePath_of_fits hfit, hread]
  change some (render ((components (render cs)).map cutComponent)) = some (render cs)
  rw [components_render hnormal, map_congr_left hshort, map_id']

theorem resolves_of_readsAlike (hfit : PathFits ('/' :: t)) (halike : ReadsAlike ('/' :: t)) :
    normalizePath arkshMaxPath ('/' :: t) = some (normalForm ('/' :: t)) ∧
      ∀ cwd', arkshPlatformResolvePath cwd' (normalForm ('/' :: t)) =
        some (normalForm ('/' :: t)) := by
  have hagain := normalizePath_again hfit
  have hone := normalizePath_of_fits hfit
  rw [halike] at hagain hone
  refine ⟨hone, ?_⟩
  intro cwd'
  exact (resolvePath_absolute cwd' _).trans hagain

theorem readsAlike_of_normalizePath (hfit : PathFits ('/' :: t))
    (h : normalizePath arkshMaxPath ('/' :: t) = some (normalForm ('/' :: t))) :
    ReadsAlike ('/' :: t) := by
  rw [normalizePath_of_fits hfit] at h
  have hcomponents := congrArg components (Option.some.inj h)
  rwa [normalForm, components_render (map_cut_normal components_normal),
    components_render components_normal] at hcomponents

/-- **Resolving gives the lexical normal form, which resolves to itself, exactly where reading the
    path as the code does leaves that form as it is.** -/
theorem resolvesLaw_iff {cwd : Text} (hcwd : IsNormal cwd) (input : Text) :
    ResolvesLaw cwd input ↔ ReadFaithfully cwd input := by
  unfold ResolvesLaw ReadFaithfully
  split
  · -- the directory is copied, and read when the copy is resolved
    rename_i hhere
    have hform := normalForm_here hcwd hhere
    rw [resolvePath_here hhere, hform]
    obtain ⟨u, rfl⟩ := hcwd.head
    constructor
    · rintro (hnone | ⟨result, -, rfl, -, hagain⟩)
      · cases hnone
      have hself := (resolvePath_absolute [] u).symm.trans (hagain [])
      have hfit : PathFits ('/' :: u) := by
        by_contra hfit
        rw [normalizePath_of_not_fits hfit] at hself
        cases hself
      refine ⟨hfit, readsAlike_of_normalizePath hfit ?_⟩
      rw [hself, isNormal_iff.mp hcwd]
    · intro ⟨hfit, halike⟩
      obtain ⟨-, hagain⟩ := resolves_of_readsAlike hfit halike
      rw [isNormal_iff.mp hcwd] at hagain
      have hlen := length_render_read u
      rw [halike, ← normalForm, isNormal_iff.mp hcwd] at hlen
      exact Or.inr ⟨'/' :: u, by rw [copyString_of_lt hlen], rfl, hcwd, hagain⟩
  · rename_i hother
    rw [resolvePath_other hother]
    obtain ⟨t, ht⟩ := resolvedPath_absolute hcwd input
    rw [ht]
    constructor
    · rintro (hnone | ⟨result, hresult, rfl, -, -⟩) hfit
      · rw [normalizePath_of_fits hfit] at hnone; cases hnone
      · exact readsAlike_of_normalizePath hfit hresult
    · intro halike
      by_cases hfit : PathFits ('/' :: t)
      · obtain ⟨hone, hagain⟩ := resolves_of_readsAlike hfit (halike hfit)
        exact Or.inr ⟨_, hone, rfl, isNormal_normalForm _, hagain⟩
      · exact Or.inl (normalizePath_of_not_fits hfit)

theorem resolvesLaw_dots : ResolvesLaw "/tmp".toList "./x/../y/".toList := by
  have hnormal : IsNormal "/tmp".toList := by
    refine ⟨["tmp".toList], ?_, by decide⟩
    intro c hc
    obtain rfl : c = "tmp".toList := by simpa using hc
    exact ⟨by decide, by decide, by decide, by decide⟩
  have halike : ReadsAlike (resolvedPath "/tmp".toList "./x/../y/".toList) := by
    unfold ReadsAlike
    decide
  exact (resolvesLaw_iff hnormal _).mpr fun _ => halike

/-- In `/tmp`, the file `a\b` is taken for the file `b` in a directory `a`. -/
theorem not_resolvesLaw_backslash : ¬ ResolvesLaw "/tmp".toList "a\\b".toList := by
  have hresult : arkshPlatformResolvePath "/tmp".toList "a\\b".toList =
      some "/tmp/a/b".toList := by
    decide
  have hform : normalForm (resolvedPath "/tmp".toList "a\\b".toList) = "/tmp/a\\b".toList := by
    decide
  rintro (hnone | ⟨result, hsome, hlaw, -, -⟩)
  · rw [hresult] at hnone; cases hnone
  · rw [hresult] at hsome
    rw [hform, ← Option.some.inj hsome] at hlaw
    exact absurd hlaw (by decide)

end Arksh
