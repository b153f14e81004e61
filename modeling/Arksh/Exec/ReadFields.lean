/-
  Subject: The variables that `read` sets, against the fields that POSIX gives them.

  The builtin splits by spans of characters, in a line whose escapes it has resolved.
-/
import Arksh.Exec.Assignments
import Arksh.Exec.ReadCommand
import Arksh.Expand.FieldSplit
import Arksh.Lib.FieldValues

namespace Arksh

open CText Input Fields List

/-! ## 1. The fields of a line -/

def ifsOf (sh : VarStore) : Text := (arkshShellGetVar sh "IFS".toList).getD " \t\n".toList

/-- The set of separators points into the entry of IFS in the table of variables. -/
def sharesIfs (sh : VarStore) : Bool :=
  (arkshShellGetVar sh "IFS".toList).isSome && sh.topNames.contains "IFS".toList

def markUnit (ifs : Text) : InputUnit → Option (Mark × Char)
  | .plain c => some (markOf ifs (c, true), c)
  | .escaped c => some (markOf ifs (c, false), c)
  | .continuation | .newline => none

def markedLine (raw : Bool) (ifs s : Text) : List (Mark × Char) :=
  (Input.firstLine raw s).filterMap (markUnit ifs)

/-- What stands behind `read` on the command line. -/
def readArgs (raw : Bool) (names : List Text) : List Text :=
  (if raw then ["-r".toList] else []) ++ names

def ReadFieldsLaw (sh : VarStore) (raw : Bool) (names : List Text) (stdin : Text) : Prop :=
  ∀ i (hi : i < names.length),
    arkshShellGetVar (commandRead sh (readArgs raw names) stdin).shell names[i] =
      (values names.length (markedLine raw (ifsOf sh) stdin))[i]?

section Line

variable {raw : Bool} {ifs s : Text} {us : List InputUnit}

theorem plain_marks (us : List InputUnit) : plain (us.filterMap (markUnit ifs)) = delivered us := by
  unfold plain delivered
  rw [map_filterMap]
  refine filterMap_congr fun u _ => ?_
  cases u with
  | plain c | escaped c | continuation | newline => rfl

theorem plain_markedLine (raw : Bool) (ifs s : Text) :
    plain (markedLine raw ifs s) = delivered (Input.firstLine raw s) := plain_marks _

theorem markedLine_marked (raw : Bool) (ifs s : Text) :
    MarkedBy (fun c => ifs.contains c) (markedLine raw ifs s) := by
  have hmark : ∀ cell : Char × Bool, markOf ifs cell ≠ .kept → ifs.contains cell.1 = true := by
    intro cell h
    unfold markOf at h
    split at h
    next hsplit =>
      obtain ⟨-, hifs⟩ := Bool.and_eq_true_iff.mp hsplit
      unfold isIfsChar at hifs
      rw [any_eq_true] at hifs
      obtain ⟨p, hp, heq⟩ := hifs
      rw [← of_decide_eq_true heq, contains_iff_mem]
      exact hp
    · exact absurd rfl h
  intro cell hcell
  obtain ⟨u, -, hu⟩ := mem_filterMap.mp hcell
  cases u with
  | plain c => obtain rfl := Option.some.inj hu; exact hmark (c, true)
  | escaped c => obtain rfl := Option.some.inj hu; exact hmark (c, false)
  | continuation | newline => cases hu

end Line

/-! ## 2. What `read` assigns -/

section Command

variable {sh : VarStore} {raw shared : Bool} {names : List Text} {ifs p stdin : Text}

/-- **The variables get spans of the line**, where these fit. -/
theorem readAssign_spans (hifs : shared = true → "IFS".toList ∉ names.dropLast)
    (hfit : ∀ v ∈ spanValues (fun c => ifs.contains c) names.length p, v.length < arkshMaxVarValue) :
    readAssign shared sh ifs p names =
      assignAll sh (names.zip (spanValues (fun c => ifs.contains c) names.length p)) := by
  induction names generalizing sh p with
  | nil => rfl
  | cons name names ih =>
    cases names with
    | nil =>
      have hlength : p.length < arkshMaxVarValue := hfit p mem_cons_self
      show (arkshShellSetVar sh name (copyString arkshMaxVarValue p) false).2 = _
      rw [copyString_of_lt hlength]
      rfl
    | cons next names =>
      rw [length_cons, length_cons, spanValues_succ, forall_mem_cons] at hfit
      rw [dropLast_cons_cons, mem_cons, not_or] at hifs
      have hcut : ∀ front back : Text, front ++ back = p →
          p.take front.length = front ∧ p.drop front.length = back := by
        intro front back heq
        rw [← heq]
        exact ⟨take_left, drop_left⟩
      obtain ⟨htake, hdrop⟩ := hcut _ _
        (takeWhile_append_dropWhile (p := fun c => !ifs.contains c) (l := p))
      have hname : ¬ (shared = true ∧ name = "IFS".toList) := fun h => (hifs h.1).1 h.2.symm
      rw [readAssign, if_neg (Nat.not_le.mpr hfit.1), htake, hdrop, if_neg hname,
        ih (fun h => (hifs h).2) hfit.2]
      rfl
      exact cons_ne_nil _ _

theorem readOptions_names (hne : names ≠ []) (hid : ∀ name ∈ names, isValidIdentifier name = true)
    (raw : Bool) : readOptions noReadOptions (readArgs raw names) =
      .ok (⟨raw, -1, none⟩, names) := by
  obtain ⟨name, names, rfl⟩ := exists_cons_of_ne_nil hne
  have hvalid := hid name mem_cons_self
  have hdash : name.head? ≠ some '-' := by
    intro h
    obtain ⟨rest, rfl⟩ := head?_eq_some_iff.mp h
    rw [isValidIdentifier, Bool.and_eq_true] at hvalid
    exact absurd hvalid.1 (by decide)
  have hoption : ∀ option : Text, option.head? = some '-' → name ≠ option := by
    intro option h heq
    exact hdash (heq ▸ h)
  have hstop : ∀ opts, readOptions opts (name :: names) = .ok (opts, name :: names) := by
    intro opts
    cases names with
    | nil => rw [readOptions, if_neg (hoption _ rfl), if_neg hdash]
    | cons next names =>
      rw [readOptions, if_neg (hoption _ rfl), if_neg (hoption _ rfl), if_neg (hoption _ rfl),
        if_neg (hoption _ rfl), if_neg hdash]
  cases raw with
  | false => exact hstop _
  | true => show readOptions noReadOptions ("-r".toList :: name :: names) = _; exact hstop _

theorem commandRead_spans (hne : names ≠ []) (hnames : Assignable sh names)
    (hifs : sharesIfs sh = true → "IFS".toList ∉ names.dropLast)
    (hline : (delivered (Input.firstLine raw stdin)).length ≤ arkshMaxLine - 2)
    (hfit : ∀ v ∈ spanValues (fun c => (ifsOf sh).contains c) names.length
      (plain (markedLine raw (ifsOf sh) stdin)), v.length < arkshMaxVarValue) :
    (commandRead sh (readArgs raw names) stdin).shell =
      assignAll sh (names.zip (spanValues (fun c => (ifsOf sh).contains c) names.length
        (plain (markedLine raw (ifsOf sh) stdin)))) := by
  have hoptions := readOptions_names hne hnames.identifiers raw
  obtain ⟨_, _, -, -, -, hread⟩ := @readLoop_firstLine raw stdin (-1)
    (fun h => absurd h (by decide))
  rw [lineBuffer_of_le hline, ← plain_markedLine raw (ifsOf sh)] at hread
  obtain ⟨name, names, rfl⟩ := exists_cons_of_ne_nil hne
  rw [commandRead, hoptions]
  dsimp only
  rw [hread]
  exact readAssign_spans hifs hfit

end Command

/-! ## 3. The law -/

structure ReadNames (sh : VarStore) (names : List Text) : Prop where
  some : names ≠ []
  assignable : Assignable sh names
  ifs : sharesIfs sh = true → "IFS".toList ∉ names.dropLast

/-- A line that spans of characters split as POSIX does. -/
structure PlainLine (sh : VarStore) (raw : Bool) (names : List Text) (stdin : Text) : Prop where
  values : PlainValues (fun c => (ifsOf sh).contains c)
    (values names.length (markedLine raw (ifsOf sh) stdin))
  start : PlainStart (markedLine raw (ifsOf sh) stdin)
    (Fields.values names.length (markedLine raw (ifsOf sh) stdin))
  back : PlainEnd (markedLine raw (ifsOf sh) stdin)
    (Fields.values names.length (markedLine raw (ifsOf sh) stdin))

structure LineFits (sh : VarStore) (raw : Bool) (names : List Text) (stdin : Text) : Prop where
  line : (delivered (Input.firstLine raw stdin)).length ≤ arkshMaxLine - 2
  fields : ∀ v ∈ values names.length (markedLine raw (ifsOf sh) stdin), v.length < arkshMaxVarValue

section Law

variable {sh : VarStore} {raw : Bool} {names : List Text} {stdin : Text}

theorem plainLine_iff (hne : names ≠ []) : PlainLine sh raw names stdin ↔
    spanValues (fun c => (ifsOf sh).contains c) names.length
        (plain (markedLine raw (ifsOf sh) stdin)) =
      values names.length (markedLine raw (ifsOf sh) stdin) := by
  have hspans := spanValues_eq_iff (n := names.length - 1)
    (markedLine_marked raw (ifsOf sh) stdin)
  rw [Nat.sub_add_cancel (length_pos_iff.mpr hne)] at hspans
  rw [hspans]
  exact ⟨fun h => ⟨h.values, h.start, h.back⟩, fun h => ⟨h.1, h.2.1, h.2.2⟩⟩

theorem getVar_zip {vs : List Text} (hnames : Assignable sh names)
    (hlength : vs.length = names.length) (hfit : ∀ v ∈ vs, v.length < arkshMaxVarValue) {i : Nat}
    (hi : i < names.length) : arkshShellGetVar (assignAll sh (names.zip vs)) names[i] = vs[i]? := by
  have hfst : (names.zip vs).map Prod.fst = names := map_fst_zip (Nat.le_of_eq hlength.symm)
  have hvs : i < vs.length := by omega
  have hmem : (names[i], vs[i]) ∈ names.zip vs := by
    rw [← getElem_zip (h := by rw [length_zip]; omega)]
    exact getElem_mem _
  rw [getElem?_eq_getElem hvs]
  refine getVar_assignAll (by rwa [hfst]) (fun pair hpair => ?_) _ hmem
  exact hfit pair.2 (of_mem_zip hpair).2

end Law

end Arksh
