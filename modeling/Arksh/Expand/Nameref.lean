/-
  Subject: Namerefs: `arksh_shell_set_nameref` and `arksh_shell_resolve_nameref` of `src/shell.c`
           beside `lookup_var_value` of `src/expand.c`.

  Whoever writes follows a chain of names in a buffer of 64 bytes, whoever reads in one of 128, and
  a reader stops at a name that is special. Both follow at most 32 references.
-/
import Arksh.Expand.AssignDefault

namespace Arksh

open CText Chain Option

def arkshShellSetNameref (sh : VarStore) (name target : Text) : Nat × VarStore :=
  if ¬ isValidIdentifier name ∨ ¬ isValidIdentifier target then (1, sh)
  else if name = target then (1, sh)
  else if arkshMaxVarValue ≤ (arkshNamerefPrefix ++ target).length then (1, sh)
  else arkshShellSetVar sh name (arkshNamerefPrefix ++ target) false

/-! ## 1. Chains as they are declared -/

def declaredNext (sh : VarStore) (n : Text) : Option Text :=
  (arkshShellGetVar sh n).bind fun v =>
    if arkshNamerefPrefix.isPrefixOf v then some (v.drop arkshNamerefPrefix.length) else none

section

variable (view : ShellView ExpandShell) (s : ExpandShell) (n : Text)

/-- A name on the chain from `n`, the 32 references that are followed and `n` itself. -/
def OnNamerefChain (c : Text) : Prop := (arrive (declaredNext s.store) c 33 n).isSome

/-- Reading and writing come to the end of a chain, or both to none. -/
structure NamerefLaw : Prop where
  ends : ∀ t, last (declaredNext s.store) 33 n = some t → resolveSpecialName view s t = none →
    arkshShellResolveNameref s.store n = some t ∧
      lookupVarValue view s n = lookupVarValue view s t
  endless : last (declaredNext s.store) 33 n = none →
    arkshShellResolveNameref s.store n = none ∧ lookupVarValue view s n = none

def PlainChain : Prop :=
  ∀ c t, OnNamerefChain s n c → declaredNext s.store c = some t →
    resolveSpecialName view s c = none ∧ t.length < arkshMaxVarName

end

/-! ## 2. The law -/

section Law

variable (render : ArkshValueItem → Option Text)
  (execute : ExpandShell → Text → Text × ExpandShell) {s : ExpandShell} {n : Text}

theorem next_eq {c : Text} (h : ∀ t, declaredNext s.store c = some t →
      resolveSpecialName (shellView render execute) s c = none ∧ t.length < arkshMaxVarName) :
    bindNext s.store c = declaredNext s.store c ∧
      readNext (shellView render execute) s c = declaredNext s.store c := by
  have hread : (shellView render execute).getVar s c = arkshShellGetVar s.store c := rfl
  rw [bindNext, readNext, hread]
  cases hv : arkshShellGetVar s.store c with
  | none => simp [declaredNext, hv]
  | some v =>
    by_cases hprefix : arkshNamerefPrefix.isPrefixOf v = true
    · have hnext : declaredNext s.store c = some (v.drop arkshNamerefPrefix.length) := by
        rw [declaredNext, hv, bind_some, if_pos hprefix]
      obtain ⟨hordinary, hshort⟩ := h _ hnext
      have hfits : ¬ 128 ≤ (v.drop arkshNamerefPrefix.length).length := by
        have hsize : arkshMaxVarName = 64 := rfl
        omega
      rw [hnext, hordinary, bind_some, bind_some, namerefTarget, referent,
        if_pos hprefix, if_pos hprefix, copyString_of_lt hshort]
      dsimp only
      rw [if_neg hfits]
      exact ⟨rfl, rfl⟩
    · rw [declaredNext, hv, bind_some, bind_some, bind_some, namerefTarget,
        referent, if_neg hprefix, if_neg hprefix, if_neg hprefix, ite_self]
      exact ⟨rfl, rfl⟩

/-- **Both come to the end of a plain chain.** -/
theorem namerefLaw_of (href : (declaredNext s.store n).isSome)
    (h : PlainChain (shellView render execute) s n) :
    NamerefLaw (shellView render execute) s n := by
  have hnext : ∀ c, OnNamerefChain s n c → _ := fun c hc =>
    next_eq render execute fun t ht => h c t hc ht
  have hwrite : last (bindNext s.store) 33 n = last (declaredNext s.store) 33 n :=
    last_congr fun c hc => (hnext c hc).1
  have hread : last (readNext (shellView render execute) s) 33 n =
      last (declaredNext s.store) 33 n := last_congr fun c hc => (hnext c hc).2
  have hresolve : arkshShellResolveNameref s.store n = last (bindNext s.store) 33 n := by
    have hn := (hnext n (by rw [OnNamerefChain, arrive_self]; rfl)).1
    obtain ⟨t, ht⟩ := isSome_iff_exists.mp (hn.symm ▸ href)
    have htarget : (arkshShellGetVar s.store n).bind namerefTarget = some t := ht
    rw [last_succ, ht, arkshShellResolveNameref, htarget]
    exact followNameref_eq s.store 32 t
  have hlookup : ∀ m, lookupVarValue (shellView render execute) s m =
      (last (readNext (shellView render execute) s) 33 m).bind
        (readLast (shellView render execute) s) := lookupVarValueDepth_eq rfl 33
  constructor
  · intro t ht hspecial
    have hlast := next_of_last ht
    have hend := (next_eq render execute fun u hu => absurd (hlast.symm.trans hu) (Option.some_ne_none u).symm).2
    rw [hresolve, hwrite, hlookup, hread, hlookup, ht, last_succ, hend, hlast]
    exact ⟨rfl, rfl⟩
  · intro hnone
    rw [hresolve, hwrite, hlookup, hread, hnone]
    exact ⟨rfl, rfl⟩

end Law

def namerefShell (target : Text) : ExpandShell :=
  { startShell with store := (arkshShellSetNameref startShell.store "r".toList target).2 }

/-- `r` refers to `q`, `q` to `x`, and `x` is set. -/
def chainShell : ExpandShell :=
  let store := (arkshShellSetNameref (namerefShell "q".toList).store "q".toList "x".toList).2
  { startShell with store := (arkshShellSetVar store "x".toList "1".toList false).2 }

theorem namerefLaw_of_x :
    NamerefLaw (shellView (fun _ => none) fun s _ => ([], s)) chainShell "r".toList :=
  namerefLaw_of _ _ (by decide) (by
    have hr : declaredNext chainShell.store "r".toList = some "q".toList := by decide
    have hq : declaredNext chainShell.store "q".toList = some "x".toList := by decide
    have hx : declaredNext chainShell.store "x".toList = none := by decide
    intro c t hc ht
    by_cases hcr : "r".toList = c
    · subst hcr
      obtain rfl := Option.some.inj (hr.symm.trans ht)
      exact ⟨by decide, by decide⟩
    rw [OnNamerefChain, arrive_succ, if_neg hcr, hr] at hc
    dsimp only at hc
    by_cases hcq : "q".toList = c
    · subst hcq
      obtain rfl := Option.some.inj (hq.symm.trans ht)
      exact ⟨by decide, by decide⟩
    rw [arrive_succ, if_neg hcq, hq] at hc
    dsimp only at hc
    by_cases hcx : "x".toList = c
    · subst hcx; cases hx.symm.trans ht
    · rw [arrive_succ, if_neg hcx, hx] at hc; cases hc)

/-- The 64th character of the target is written off. -/
theorem not_namerefLaw_long : ¬ NamerefLaw (shellView (fun _ => none) fun s _ => ([], s))
      (namerefShell (List.replicate 64 'a')) "r".toList := by
  intro hlaw
  have h := (hlaw.ends (List.replicate 64 'a') (by decide) (by decide)).1
  revert h
  decide

end Arksh
