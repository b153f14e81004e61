/-
  Subject: `arksh_platform_basename` and `arksh_platform_dirname` of `src/platform.c` on POSIX.

  Both look for the last component from the end of the path. The one returns all that is left of
  the text from there, with the separators behind the component; the other takes these off first.
  A backslash is a separator, as it is for `normalize_path`.
-/
import Arksh.Platform.ResolvePath
import Mathlib.Data.List.DropRight

namespace Arksh

open CText LexicalPath List Bool

/-! ## 1. The code -/

def isSeparator (c : Char) : Bool := c = '/' || c = '\\'

def arkshPlatformBasename (size : Nat) (path : Text) : Text :=
  if path = [] then []
  else
    let front := path.rdropWhile isSeparator
    if front = [] then copyString size ['/']
    else copyString size (path.drop (front.rdropWhile (! isSeparator ·)).length)

/-- `while (len > 1 && is_separator(temp[len - 1]))` -/
def cutSeparators : Text → Text
  | [] => []
  | c :: temp => c :: temp.rdropWhile isSeparator

def arkshPlatformDirname (size : Nat) (path : Text) : Text :=
  let temp := (cutSeparators (copyString arkshMaxPath path)).rdropWhile (! isSeparator ·)
  copyString size (if cutSeparators temp = [] then ['.'] else cutSeparators temp)

/-! ## 2. The parts of a path -/

def IsSeparators (t : Text) : Prop := ∀ c ∈ t, isSeparator c = true

def EndsPlain (t : Text) : Prop := ∀ c ∈ t.getLast?, isSeparator c = false

structure PathParts where
  dir : Text
  seps : Text
  last : Text
  tail : Text
  dir_plain : EndsPlain dir
  seps_all : IsSeparators seps
  seps_ne : dir ≠ [] → seps ≠ []
  last_none : ∀ c ∈ last, isSeparator c = false
  last_ne : last ≠ []
  tail_all : IsSeparators tail

def PathParts.text (p : PathParts) : Text := p.dir ++ p.seps ++ p.last ++ p.tail

def PathParts.dirname (p : PathParts) : Text :=
  if p.dir ≠ [] then p.dir else if p.seps ≠ [] then p.seps.take 1 else ['.']

section Cuts

variable {a b : Text} {p : Char → Bool}

theorem rdropWhile_run (hb : ∀ c ∈ b, p c = true) (ha : ∀ c ∈ a.getLast?, p c = false) :
    (a ++ b).rdropWhile p = a := by
  have hself : a.rdropWhile p = a := rdropWhile_eq_self_iff.mpr fun hne hlast =>
    false_ne_true ((ha _ (getLast?_eq_some_getLast hne)).symm.trans hlast)
  conv_rhs => rw [← hself]
  rw [rdropWhile, rdropWhile, reverse_append,
    dropWhile_append_of_pos fun c hc => hb c (mem_reverse.mp hc)]

theorem endsPlain_rdropWhile (t : Text) : EndsPlain (t.rdropWhile isSeparator) := by
  intro c hc
  obtain ⟨hne, rfl⟩ := mem_getLast?_eq_getLast hc
  exact eq_false_iff.mpr (rdropWhile_last_not isSeparator t hne)

theorem cutSeparators_run (ha : a ≠ []) (hplain : EndsPlain a) (hb : IsSeparators b) :
    cutSeparators (a ++ b) = a := by
  cases a with
  | nil => exact absurd rfl ha
  | cons c a =>
    rw [cons_append, cutSeparators, rdropWhile_run hb]
    intro d hd
    refine hplain d ?_
    rw [getLast?_cons, Option.mem_def.mp hd]
    rfl

theorem cutSeparators_all (hb : IsSeparators b) : cutSeparators b = b.take 1 := by
  cases b with
  | nil => rfl
  | cons c b =>
    rw [cutSeparators, rdropWhile_eq_nil_iff.mpr fun d hd => hb d (mem_cons_of_mem _ hd)]
    rfl

end Cuts

theorem exists_parts (path : Text) : IsSeparators path ∨ ∃ p : PathParts, p.text = path := by
  let front := path.rdropWhile isSeparator
  let lead := front.rdropWhile (! isSeparator ·)
  have hlead : lead.rdropWhile isSeparator ++ lead.rtakeWhile isSeparator = lead :=
    rdropWhile_append_rtakeWhile
  have hfront : lead ++ front.rtakeWhile (! isSeparator ·) = front := rdropWhile_append_rtakeWhile
  have hpath : front ++ path.rtakeWhile isSeparator = path := rdropWhile_append_rtakeWhile
  by_cases hnil : front = []
  · exact .inl (rdropWhile_eq_nil_iff.mp hnil)
  · refine .inr ⟨⟨lead.rdropWhile isSeparator, lead.rtakeWhile isSeparator,
      front.rtakeWhile (! isSeparator ·), path.rtakeWhile isSeparator, endsPlain_rdropWhile _,
      fun c hc => mem_rtakeWhile_imp hc, ?_, ?_, ?_, fun c hc => mem_rtakeWhile_imp hc⟩, ?_⟩
    · -- what is in front of the last component ends with a separator
      intro hne hnone
      have hlead : lead ≠ [] := fun h => hne (by rw [h, rdropWhile_nil])
      have hsep : isSeparator (lead.getLast hlead) = true := by
        simpa using rdropWhile_last_not (! isSeparator ·) front hlead
      exact rtakeWhile_eq_nil_iff.mp hnone hlead hsep
    · intro c hc; simpa using mem_rtakeWhile_imp hc
    · intro hnone
      have hsep := rtakeWhile_eq_nil_iff.mp hnone hnil
      exact hsep (by simpa using rdropWhile_last_not isSeparator path hnil)
    · rw [PathParts.text, hlead, hfront, hpath]

namespace PathParts

variable (p : PathParts)

theorem front_ends : ∀ c ∈ (p.dir ++ p.seps).getLast?, (! isSeparator c) = false := by
  intro c hc
  by_cases hseps : p.seps = []
  · rw [hseps, append_nil] at hc
    by_cases hdir : p.dir = []
    · rw [hdir] at hc; cases hc
    · exact absurd hseps (p.seps_ne hdir)
  · rw [getLast?_append_of_ne_nil _ hseps] at hc
    rw [p.seps_all c (mem_of_mem_getLast? hc)]
    rfl

theorem last_ends {front : Text} : EndsPlain (front ++ p.last) := by
  intro c hc
  rw [getLast?_append_of_ne_nil _ p.last_ne] at hc
  exact p.last_none c (mem_of_mem_getLast? hc)

/-- **The component is returned with the separators behind it.** -/
theorem basename_eq (size : Nat) :
    arkshPlatformBasename size p.text = copyString size (p.last ++ p.tail) := by
  have hne : p.dir ++ p.seps ++ p.last ≠ [] := append_ne_nil_of_right_ne_nil _ p.last_ne
  have htext : p.text ≠ [] := append_ne_nil_of_left_ne_nil hne _
  rw [arkshPlatformBasename, if_neg htext]
  dsimp only
  rw [text, rdropWhile_run p.tail_all p.last_ends, if_neg hne,
    rdropWhile_run (fun c hc => by rw [p.last_none c hc]; rfl) p.front_ends, append_assoc,
    drop_left]

/-- **The directory is that of POSIX.** -/
theorem dirname_eq (hfits : p.text.length < arkshMaxPath) :
    arkshPlatformDirname arkshMaxPath p.text = p.dirname := by
  have hne : p.dir ++ p.seps ++ p.last ≠ [] := append_ne_nil_of_right_ne_nil _ p.last_ne
  rw [arkshPlatformDirname, copyString_of_lt hfits]
  rw [text, cutSeparators_run hne p.last_ends p.tail_all,
    rdropWhile_run (fun c hc => by rw [p.last_none c hc]; rfl) p.front_ends, dirname]
  have hshort : p.dir.length < arkshMaxPath := by
    rw [text, append_assoc, append_assoc, length_append] at hfits
    omega
  by_cases hdir : p.dir = []
  · rw [if_neg (not_not_intro hdir), hdir, nil_append, cutSeparators_all p.seps_all]
    cases p.seps with
    | nil | cons c seps => rfl
  · rw [if_pos hdir, cutSeparators_run hdir p.dir_plain p.seps_all, if_neg hdir,
      copyString_of_lt hshort]

end PathParts

/-! ## 3. Normal forms -/

/-- `normalize_separators` -/
def slashes (path : Text) : Text := path.map fun c => if c = '\\' then '/' else c

def pushSegment (absolute : Bool) (segments : List Text) (token : Text) : List Text :=
  if token = [] ∨ token = ['.'] then segments
  else if token ≠ ['.', '.'] then segments ++ [token]
  else if segments ≠ [] ∧ segments.getLast? ≠ some ['.', '.'] then segments.dropLast
  else if absolute then segments
  else segments ++ [token]

/-- Whether the path is absolute, and what is left of it without `.` and `..`. -/
def lexicalForm (path : Text) : Bool × List Text :=
  let absolute := (slashes path).head? = some '/'
  (absolute, ((slashes path).splitOn '/').foldl (pushSegment absolute) [])

/-- The components that are not empty. -/
def fields (path : Text) : List Text := ((slashes path).splitOn '/').filter (· ≠ [])

section Fields

variable {a b : Text}

theorem foldl_pushSegment_filter (absolute : Bool) (tokens segments : List Text) :
    tokens.foldl (pushSegment absolute) segments =
      (tokens.filter (· ≠ [])).foldl (pushSegment absolute) segments := by
  rw [foldl_filter]
  refine foldl_ext _ _ _ fun segments token _ => ?_
  by_cases hnil : token = []
  · rw [pushSegment, if_pos (.inl hnil), if_neg (by simpa using hnil)]
  · rw [if_pos (by simpa using hnil)]

theorem fields_append {c : Char} (hc : isSeparator c = true) :
    fields (a ++ c :: b) = fields a ++ fields b := by
  have hslash : (if c = '\\' then '/' else c) = '/' := by
    rcases or_eq_true_iff.mp hc with h | h
    · rw [of_decide_eq_true h]; rfl
    · rw [of_decide_eq_true h]; rfl
  rw [fields, slashes, map_append, map_cons, hslash, splitOn_append_cons_self, filter_append]
  rfl

theorem fields_separators (hb : IsSeparators b) : fields b = [] := by
  induction b with
  | nil => rfl
  | cons c b ih =>
    have hsplit := @fields_append [] b c (hb c mem_cons_self)
    rw [nil_append, ih fun d hd => hb d (mem_cons_of_mem _ hd)] at hsplit
    exact hsplit

theorem fields_run (hb : IsSeparators b) : fields (a ++ b) = fields a ∧ fields (b ++ a) = fields a := by
  constructor
  · cases b with
    | nil => rw [append_nil]
    | cons c b =>
      rw [fields_append (hb c mem_cons_self),
        fields_separators fun d hd => hb d (mem_cons_of_mem _ hd), append_nil]
  · induction b with
    | nil => rfl
    | cons c b ih =>
      have hsplit := @fields_append [] (b ++ a) c (hb c mem_cons_self)
      rw [nil_append, ih fun d hd => hb d (mem_cons_of_mem _ hd)] at hsplit
      exact hsplit

theorem lexicalForm_congr (hhead : a.head?.any isSeparator = b.head?.any isSeparator)
    (hfields : fields a = fields b ∨ ['.'] :: fields a = fields b) :
    lexicalForm a = lexicalForm b := by
  have habsolute : ∀ t : Text, decide ((slashes t).head? = some '/') = t.head?.any isSeparator := by
    intro t
    cases t with
    | nil => rfl
    | cons c t =>
      rw [Bool.eq_iff_iff]
      by_cases hc : c = '\\' <;> simp [slashes, isSeparator, hc]
  rw [lexicalForm, lexicalForm]
  rw [habsolute, habsolute, hhead, foldl_pushSegment_filter _ ((slashes a).splitOn '/'),
    foldl_pushSegment_filter _ ((slashes b).splitOn '/')]
  rcases hfields with h | h
  · rw [fields, fields] at h; rw [h]
  · rw [fields, fields] at h; rw [← h, foldl_cons, pushSegment, if_pos (.inr rfl)]

end Fields

/-- **Put together again, the parts have the normal form of the path.** -/
theorem PathParts.recomposed (p : PathParts) :
    lexicalForm p.text = lexicalForm (p.dirname ++ '/' :: (p.last ++ p.tail)) := by
  have hfront : fields p.text = fields (p.dir ++ p.seps ++ p.last) := (fields_run p.tail_all).1
  have hback : fields (p.last ++ p.tail) = fields p.last := (fields_run p.tail_all).1
  rw [dirname]
  by_cases hdir : p.dir = []
  · rw [if_neg (not_not_intro hdir)]
    rw [hdir, nil_append] at hfront
    have htext : p.text = p.seps ++ (p.last ++ p.tail) := by
      rw [text, hdir, nil_append, append_assoc]
    cases hseps : p.seps with
    | nil =>
      rw [hseps, nil_append] at hfront htext
      obtain ⟨c, last, hlast⟩ := exists_cons_of_ne_nil p.last_ne
      have hplain := p.last_none c (hlast ▸ mem_cons_self)
      refine lexicalForm_congr ?_ (.inr ?_)
      · rw [htext, hlast]; exact hplain
      · rw [fields_append rfl, hback, hfront]; rfl
    | cons c seps =>
      have hc : isSeparator c = true := p.seps_all c (hseps ▸ mem_cons_self)
      refine lexicalForm_congr ?_ (.inl ?_)
      · rw [htext, hseps]; rfl
      · rw [hfront, (fields_run p.seps_all).2, fields_append rfl, hback]
        have hone : fields [c] = [] := fields_separators fun d hd => mem_singleton.mp hd ▸ hc
        exact (congrArg (· ++ fields p.last) hone).symm
  · rw [if_pos hdir]
    obtain ⟨d, dir, hd⟩ := exists_cons_of_ne_nil hdir
    obtain ⟨c, seps, hseps⟩ := exists_cons_of_ne_nil (p.seps_ne hdir)
    have hall : IsSeparators seps := fun e he => p.seps_all e (hseps ▸ mem_cons_of_mem _ he)
    refine lexicalForm_congr ?_ (.inl ?_)
    · rw [text, hd]; rfl
    · rw [hfront, hseps, append_assoc, cons_append,
        fields_append (p.seps_all c (hseps ▸ mem_cons_self)), (fields_run hall).2,
        fields_append rfl, hback]

theorem separators_eq {path : Text} (hne : path ≠ []) (hall : IsSeparators path)
    (hfits : path.length < arkshMaxPath) : arkshPlatformBasename arkshMaxPath path = ['/'] ∧
      arkshPlatformDirname arkshMaxPath path = path.take 1 := by
  obtain ⟨c, rest, rfl⟩ := exists_cons_of_ne_nil hne
  have hc : isSeparator c = true := hall c mem_cons_self
  constructor
  · rw [arkshPlatformBasename, if_neg hne, if_pos (rdropWhile_eq_nil_iff.mpr hall)]; rfl
  · have hone : [c].rdropWhile (! isSeparator ·) = [c] := by rw [rdropWhile_singleton, hc]; rfl
    rw [arkshPlatformDirname, copyString_of_lt hfits, cutSeparators_all hall]
    exact congrArg (fun t => copyString arkshMaxPath (if cutSeparators t = [] then ['.']
      else cutSeparators t)) hone

/-! ## 4. The law -/

/-- What the two functions return for a path. -/
structure PartsLaw (path : Text) : Prop where
  basename : ∀ p : PathParts, p.text = path → arkshPlatformBasename arkshMaxPath path = p.last
  dirname : ∀ p : PathParts, p.text = path → arkshPlatformDirname arkshMaxPath path = p.dirname
  separators : IsSeparators path → arkshPlatformBasename arkshMaxPath path = ['/'] ∧
    arkshPlatformDirname arkshMaxPath path = path.take 1
  form : lexicalForm path = lexicalForm (arkshPlatformDirname arkshMaxPath path ++
    '/' :: arkshPlatformBasename arkshMaxPath path)

/-- **The parts of a path are right exactly if no separator stands behind its last component.** -/
theorem partsLaw_iff {path : Text} (hne : path ≠ []) (hfits : path.length < arkshMaxPath) :
    PartsLaw path ↔ IsSeparators path ∨ EndsPlain path := by
  have hlast : ∀ p : PathParts, p.text = path →
      arkshPlatformBasename arkshMaxPath path = p.last ++ p.tail := by
    rintro p rfl
    rw [p.basename_eq, copyString_of_lt]
    rw [PathParts.text, append_assoc, length_append] at hfits
    omega
  constructor
  · intro hlaw
    refine (exists_parts path).imp_right ?_
    rintro ⟨p, rfl⟩
    have htail : p.tail = [] := by
      simpa using (hlast p rfl).symm.trans (hlaw.basename p rfl)
    rw [PathParts.text, htail, append_nil]
    exact p.last_ends
  · intro hends
    constructor
    · rintro p rfl
      have htail : p.tail = [] := by
        by_contra htail
        rcases hends with hall | hplain
        · obtain ⟨c, last, hc⟩ := exists_cons_of_ne_nil p.last_ne
          have hmem : c ∈ p.last := hc ▸ mem_cons_self
          have hsep := hall c (mem_append_left _ (mem_append_right _ hmem))
          exact false_ne_true ((p.last_none c hmem).symm.trans hsep)
        · have hend := getLast?_eq_some_getLast htail
          have hsep := p.tail_all _ (getLast_mem htail)
          refine false_ne_true ((hplain _ ?_).symm.trans hsep)
          rw [PathParts.text, getLast?_append_of_ne_nil _ htail]
          exact hend
      rw [hlast p rfl, htail, append_nil]
    · rintro p rfl; exact p.dirname_eq hfits
    · exact fun hall => separators_eq hne hall hfits
    · rcases exists_parts path with hall | ⟨p, rfl⟩
      · obtain ⟨hbase, hdir⟩ := separators_eq hne hall hfits
        obtain ⟨c, rest, rfl⟩ := exists_cons_of_ne_nil hne
        rw [hbase, hdir]
        refine lexicalForm_congr rfl (.inl ?_)
        rw [fields_separators hall, fields_separators]
        intro d hd
        rcases mem_cons.mp hd with rfl | hd
        · exact hall d mem_cons_self
        · rw [show d = '/' by simpa using hd]; rfl
      · rw [p.dirname_eq hfits, hlast p rfl]; exact p.recomposed

theorem partsLaw_usr : "/usr/lib".toList ≠ [] ∧ PartsLaw "/usr/lib".toList :=
  ⟨by decide, (partsLaw_iff (by decide) (by decide)).mpr (.inr (by
    intro c hc
    rw [← Option.some.inj (show some 'b' = some c from hc)]
    rfl))⟩

/-- The component `b` is returned with the separator behind it. -/
theorem not_partsLaw_tail : ¬ PartsLaw "a/b/".toList := by
  intro hlaw
  have hall : ∀ c ∈ ['/'], isSeparator c = true := fun c hc => mem_singleton.mp hc ▸ rfl
  have hbase : arkshPlatformBasename arkshMaxPath "a/b/".toList = ['b'] := hlaw.basename
    { dir := ['a'], seps := ['/'], last := ['b'], tail := ['/']
      dir_plain := fun c hc => Option.some.inj hc ▸ rfl
      seps_all := hall
      seps_ne := fun _ => cons_ne_nil _ _
      last_none := fun c hc => mem_singleton.mp hc ▸ rfl
      last_ne := cons_ne_nil _ _
      tail_all := hall } rfl
  exact absurd hbase (by decide)

end Arksh
