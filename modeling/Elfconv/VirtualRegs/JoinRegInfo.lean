/-
Elfconv/VirtualRegs/JoinRegInfo.lean

`join_reg_info_node`: the summaries of two blocks that follow each other are joined.

The three maps have three rules: a load of the child is kept when the parent neither loads nor
stores the register, a store of the child replaces that of the parent, and a value of the
child replaces one that is no wider, or any when the child stores the register.  The widths
are compared by `ERCSize`, which stops the run on `RegNULL`.

All rules are rules for one register (`join_at`).  Joining is associative wherever it does not
stop the run (`join_assoc`), and `composes_iff` says for which blocks the join is the summary
that the instructions of both would have to have.
-/
import Elfconv.VirtualRegs.LiftIntoBlock

namespace Elfconv

/-- The entries of a summary for one register. -/
structure RegSummary where
  ld : Option ERC
  str : Option ERC
  fresh : Option FreshInst

namespace RegSummary

/-- The value of the child replaces the one of the parent; `none` where `ERCSize` stops the
run. -/
def joinFresh (child_stores : Bool) (old new : FreshInst) : Option FreshInst :=
  if child_stores then some new
  else do
    let old_class ← old.erc
    let new_class ← new.erc
    return if ERCSize old_class ≤ ERCSize new_class then new else old

/-- `joinFresh` where either side may have no entry. -/
def joinFresh? (child_stores : Bool) : Option FreshInst → Option FreshInst →
    Option (Option FreshInst)
  | old, none => some old
  | none, some new => some (some new)
  | some old, some new => (joinFresh child_stores old new).map some

/-- The entries of one register, for a parent and the child that runs after it. -/
def join (s child : RegSummary) : Option RegSummary :=
  (joinFresh? child.str.isSome s.fresh child.fresh).map fun fresh =>
    { ld := s.ld.or (if s.str.isSome then none else child.ld)
      str := child.str.or s.str
      fresh := fresh }

@[simp] theorem joinFresh?_none (stores : Bool) (old : Option FreshInst) :
    joinFresh? stores old none = some old := by
  cases old <;> rfl

@[simp] theorem joinFresh?_first (stores : Bool) (new : Option FreshInst) :
    joinFresh? stores none new = some new := by
  cases new <;> rfl

@[simp] theorem joinFresh?_stores (old : Option FreshInst) (new : FreshInst) :
    joinFresh? true old (some new) = some (some new) := by
  cases old <;> rfl

/-- The entry with the wider class stays, the new one if both are as wide. -/
theorem joinFresh_of_some {old new : FreshInst} {a b : ERC} (ha : old.erc = some a)
    (hb : new.erc = some b) :
    joinFresh false old new = some (if ERCSize a ≤ ERCSize b then new else old) := by
  simp only [joinFresh, Bool.false_eq_true, if_false, ha, hb]
  rfl

/-- The comparison of classes ends the run if one is not known. -/
theorem joinFresh_eq_some {old new v : FreshInst} (h : joinFresh false old new = some v) :
    ∃ a b, old.erc = some a ∧ new.erc = some b := by
  simp only [joinFresh, Bool.false_eq_true, if_false] at h
  obtain ⟨a, ha, h⟩ := Option.bind_eq_some_iff.mp h
  obtain ⟨b, hb, -⟩ := Option.bind_eq_some_iff.mp h
  exact ⟨a, b, ha, hb⟩

/-- The wider of three values, and the last among equals. -/
theorem joinFresh_assoc {sb : Bool} {x y z w : FreshInst} (h : joinFresh sb x y = some w) :
    (joinFresh false w z).map some =
      ((joinFresh false y z).map some).bind (joinFresh? sb (some x)) := by
  cases sb with
  | true =>
      obtain rfl : y = w := Option.some.inj h
      cases joinFresh false y z <;> rfl
  | false =>
      obtain ⟨a, b, ha, hb⟩ := joinFresh_eq_some h
      rw [joinFresh_of_some ha hb] at h
      have hw := Option.some.inj h
      cases hz : z.erc with
      | none =>
          have hnone : ∀ v : FreshInst, joinFresh false v z = none := fun v => by
            simp [joinFresh, hz]
          rw [hnone, hnone]
          rfl
      | some c =>
          rw [joinFresh_of_some hb hz]
          subst hw
          simp only [Option.map_some, Option.bind_some, joinFresh?]
          by_cases hab : ERCSize a ≤ ERCSize b
          -- the wider of the first two is compared with the third
          · rw [if_pos hab, joinFresh_of_some hb hz]
            by_cases hbc : ERCSize b ≤ ERCSize c
            · rw [if_pos hbc, joinFresh_of_some ha hz, if_pos (Nat.le_trans hab hbc)]
            · rw [if_neg hbc, joinFresh_of_some ha hb, if_pos hab]
          · rw [if_neg hab, joinFresh_of_some ha hz]
            by_cases hbc : ERCSize b ≤ ERCSize c
            · rw [if_pos hbc, joinFresh_of_some ha hz]
            · -- the first is wider than the second, and that is wider than the third
              have hac : ¬ ERCSize a ≤ ERCSize c := by omega
              rw [if_neg hbc, joinFresh_of_some ha hb, if_neg hab, if_neg hac]

/-- Joining three values does not depend on which two are joined first. -/
theorem joinFresh?_assoc {sb sc : Bool} {x y z w : Option FreshInst}
    (hb : sb = true → y.isSome = true) (hc : sc = true → z.isSome = true)
    (hxy : joinFresh? sb x y = some w) :
    joinFresh? sc w z = (joinFresh? sc y z).bind (joinFresh? (sc || sb) x) := by
  -- by which of the three have a value; a child that stores the register has one
  cases z with
  | none =>
      cases sc with
      | true => cases hc rfl
      | false =>
          rw [joinFresh?_none, joinFresh?_none]
          exact hxy.symm
  | some z =>
      cases sc with
      | true => simp
      | false =>
          cases y with
          | none =>
              cases sb with
              | true => cases hb rfl
              | false =>
                  rw [joinFresh?_none, Option.some.injEq] at hxy
                  subst hxy
                  rw [joinFresh?_first]
                  rfl
          | some y =>
              cases x with
              | none =>
                  rw [joinFresh?_first, Option.some.injEq] at hxy
                  subst hxy
                  cases joinFresh? false (some y) (some z) with
                  | none => rfl
                  | some v => exact (joinFresh?_first _ v).symm
              | some x =>
                  obtain ⟨w, hw, rfl⟩ := Option.map_eq_some_iff.mp hxy
                  exact joinFresh_assoc hw

/-- A register that is stored has a value. -/
def Valued (s : RegSummary) : Prop := s.str.isSome = true → s.fresh.isSome = true

/-- **Joining is associative**, once the first two do not stop the run. -/
theorem join_assoc {a b c ab : RegSummary} (hb : b.Valued) (hc : c.Valued)
    (hab : a.join b = some ab) : ab.join c = (b.join c).bind a.join := by
  obtain ⟨w, hw, rfl⟩ := Option.map_eq_some_iff.mp hab
  have hassoc := joinFresh?_assoc hb hc hw
  have hstores : (c.str.or b.str).isSome = (c.str.isSome || b.str.isSome) := Option.isSome_or
  have hld : (a.ld.or (if a.str.isSome then none else b.ld)).or
      (if (b.str.or a.str).isSome then none else c.ld) =
      a.ld.or (if a.str.isSome then none else b.ld.or (if b.str.isSome then none else c.ld)) := by
    rw [Option.or_assoc, Option.isSome_or]
    cases a.str with
    | none => simp
    | some erc => simp
  unfold join
  rw [hassoc]
  cases joinFresh? c.str.isSome b.fresh c.fresh with
  | none => rfl
  | some v =>
      show Option.map _ (joinFresh? _ a.fresh v) = Option.map _ (joinFresh? _ a.fresh v)
      rw [hstores]
      simp only [hld, Option.or_assoc]

end RegSummary

namespace BBRegInfoNode

/-- The entries for a register. -/
def of (n : BBRegInfoNode) (er : EcvReg) : RegSummary :=
  ⟨n.bb_ld_r_mp er, n.bb_str_r_mp er, n.r_fresh_inst_mp.lookup er⟩

/-- What becomes of the value of a register. -/
def joinFreshOf (n child : BBRegInfoNode) (er : EcvReg) : Option (Option FreshInst) :=
  RegSummary.joinFresh? (child.bb_str_r_mp er).isSome (n.r_fresh_inst_mp.lookup er)
    (child.r_fresh_inst_mp.lookup er)

/-- The joined map has the keys of both. -/
theorem isSome_joinFreshOf {n child : BBRegInfoNode} {er : EcvReg} {o : Option FreshInst}
    (h : n.joinFreshOf child er = some o) :
    o.isSome = true ↔ er ∈ n.r_fresh_inst_mp.keys ∪ child.r_fresh_inst_mp.keys := by
  rw [Finset.mem_union, n.r_fresh_inst_mp.mem_keys, child.r_fresh_inst_mp.mem_keys]
  unfold joinFreshOf RegSummary.joinFresh? at h
  split at h
  · rename_i hnew
    cases h
    simp [hnew]
  · rename_i hnew
    cases h
    simp [hnew]
  · rename_i hnew
    obtain ⟨v, -, rfl⟩ := Option.map_eq_some_iff.mp h
    simp [hnew]

theorem isSome_of_keys (n : BBRegInfoNode) {child : BBRegInfoNode}
    (h : ∀ er ∈ child.r_fresh_inst_mp.keys, (n.joinFreshOf child er).isSome = true)
    (er : EcvReg) : (n.joinFreshOf child er).isSome = true := by
  by_cases her : er ∈ child.r_fresh_inst_mp.keys
  · exact h er her
  · rw [child.r_fresh_inst_mp.mem_keys, Option.not_isSome_iff_eq_none] at her
    unfold joinFreshOf
    rw [her, RegSummary.joinFresh?_none]
    rfl

/-- `join_reg_info_node`: the entries of the child are gone through; `none` when one of them
stops the run. -/
def join_reg_info_node (n child : BBRegInfoNode) : Option BBRegInfoNode :=
  if h : ∀ er ∈ child.r_fresh_inst_mp.keys, (n.joinFreshOf child er).isSome = true then
    some {
      -- a load of the child behind a store of the parent does not count
      bb_ld_r_mp := fun er =>
        (n.bb_ld_r_mp er).or (if n.bb_str_r_mp.contains er then none else child.bb_ld_r_mp er)
      bb_str_r_mp := fun er => (child.bb_str_r_mp er).or (n.bb_str_r_mp er)
      r_fresh_inst_mp := {
        lookup := fun er => (n.joinFreshOf child er).join
        keys := n.r_fresh_inst_mp.keys ∪ child.r_fresh_inst_mp.keys
        mem_keys := by
          intro er
          obtain ⟨o, ho⟩ := Option.isSome_iff_exists.mp (n.isSome_of_keys h er)
          rw [ho, Option.join_some, isSome_joinFreshOf ho] } }
  else none

/-- A node is its entries. -/
theorem ext_of {n m : BBRegInfoNode} (h : ∀ er, n.of er = m.of er) : n = m := by
  obtain ⟨ld, str, fresh⟩ := n
  obtain ⟨ld', str', fresh'⟩ := m
  obtain rfl : ld = ld' := funext fun er => congrArg RegSummary.ld (h er)
  obtain rfl : str = str' := funext fun er => congrArg RegSummary.str (h er)
  obtain rfl : fresh = fresh' :=
    FreshMap.ext_lookup fun er => congrArg RegSummary.fresh (h er)
  rfl

variable {n child k : BBRegInfoNode}

/-- **Two summaries are joined register by register.** -/
theorem join_at : n.join_reg_info_node child = some k ↔
    ∀ er, (n.of er).join (child.of er) = some (k.of er) := by
  constructor
  · intro h er
    unfold join_reg_info_node at h
    split at h
    · rename_i hkeys
      cases h
      obtain ⟨o, ho⟩ := Option.isSome_iff_exists.mp (n.isSome_of_keys hkeys er)
      show (n.joinFreshOf child er).map _ =
        some (RegSummary.mk _ _ (n.joinFreshOf child er).join)
      rw [ho]
      rfl
    · cases h
  · intro h
    -- the join at a register fails where a value has no class to compare
    have hat : ∀ er, ∃ o, n.joinFreshOf child er = some o ∧
        k.of er = ⟨(n.bb_ld_r_mp er).or
          (if n.bb_str_r_mp.contains er then none else child.bb_ld_r_mp er),
          (child.bb_str_r_mp er).or (n.bb_str_r_mp er), o⟩ := by
      intro er
      obtain ⟨o, ho, hk⟩ := Option.map_eq_some_iff.mp (h er)
      exact ⟨o, ho, hk.symm⟩
    have hkeys : ∀ er ∈ child.r_fresh_inst_mp.keys, (n.joinFreshOf child er).isSome = true := by
      intro er _
      obtain ⟨o, ho, -⟩ := hat er
      rw [ho]
      rfl
    unfold join_reg_info_node
    rw [dif_pos hkeys]
    refine congrArg some (ext_of fun er => ?_)
    obtain ⟨o, ho, hk⟩ := hat er
    rw [hk]
    show RegSummary.mk _ _ (n.joinFreshOf child er).join = _
    rw [ho]
    rfl

/-- The join stops the run only where the join of a register does. -/
theorem exists_join (h : ∀ er, ∃ s, (n.of er).join (child.of er) = some s) :
    ∃ k, n.join_reg_info_node child = some k := by
  have hkeys : ∀ er ∈ child.r_fresh_inst_mp.keys, (n.joinFreshOf child er).isSome = true := by
    intro er _
    obtain ⟨s, hs⟩ := h er
    obtain ⟨o, ho, -⟩ := Option.map_eq_some_iff.mp hs
    exact Option.isSome_iff_exists.mpr ⟨o, ho⟩
  unfold join_reg_info_node
  rw [dif_pos hkeys]
  exact ⟨_, rfl⟩

/-- **The order in which a chain of three is joined does not matter.** -/
theorem join_reg_info_node_assoc {a b c ab : BBRegInfoNode} (hb : ∀ er, (b.of er).Valued)
    (hc : ∀ er, (c.of er).Valued) (hab : a.join_reg_info_node b = some ab) :
    ab.join_reg_info_node c =
      (b.join_reg_info_node c).bind a.join_reg_info_node := by
  have hassoc := fun er => RegSummary.join_assoc (hb er) (hc er) (join_at.mp hab er)
  ext k
  rw [Option.bind_eq_some_iff, join_at]
  constructor
  · intro h
    -- what each register becomes in the join of the last two
    have hbc : ∀ er, ∃ bc, (b.of er).join (c.of er) = some bc ∧
        (a.of er).join bc = some (k.of er) := fun er =>
      Option.bind_eq_some_iff.mp ((hassoc er).symm.trans (h er))
    obtain ⟨bc, hjoin⟩ := exists_join fun er => (hbc er).imp fun _ h => h.1
    refine ⟨bc, hjoin, join_at.mpr fun er => ?_⟩
    obtain ⟨bc', h₁, h₂⟩ := hbc er
    rw [join_at.mp hjoin er] at h₁
    cases h₁
    exact h₂
  · rintro ⟨bc, hbc, habc⟩ er
    rw [hassoc, join_at.mp hbc er]
    exact join_at.mp habc er

end BBRegInfoNode

/-! ### What the summary of a sequence of accesses has to be -/

namespace RegUse

/-- The class by which a use reads the register. -/
def readOf (er : EcvReg) : RegUse → Option ERC
  | .read info _ _ => if info.1 = er then some info.2 else none
  | .write .. => none

/-- The value that a use leaves for a register, by the class of the access. -/
def leaves (er : EcvReg) : RegUse → Option FreshInst
  | .read info _ (some v) => if info.1 = er then some ⟨some info.2, v, 0, false⟩ else none
  | .read _ _ none => none
  | .write info v order => if info.1 = er then some ⟨some info.2, v, order, true⟩ else none

end RegUse

/-- The bits of the class that the entry was made with. -/
def FreshInst.width (v : FreshInst) : Nat := (v.erc.map ERCSize).getD 0

/-- The classes of the reads of a register before it is written. -/
def readsBeforeWrite : List RegUse → EcvReg → List ERC
  | [], _ => []
  | u :: us, er =>
      (u.readOf er).toList ++
        if (u.writtenOf er).isSome then [] else readsBeforeWrite us er

/-- The class of the last write. -/
def lastWrite (us : List RegUse) (er : EcvReg) : Option ERC :=
  us.reverse.findSome? (RegUse.writtenOf er)

/-- The values of a register that are available at the end: what the last write left, and the
reads after it. -/
def available (us : List RegUse) (er : EcvReg) : List FreshInst :=
  us.foldl
    (fun vs u => (if (u.writtenOf er).isSome then [] else vs) ++ (u.leaves er).toList) []

/-- An entry of `r_fresh_inst_mp` stands for a register: it is one of the values available,
and a read only if there is no wider one. -/
def Represents (vs : List FreshInst) : Option FreshInst → Prop
  | none => vs = []
  | some v => v ∈ vs ∧ (v.stored = false → ∀ v' ∈ vs, v'.width ≤ v.width)

/-- The summary of the uses. -/
structure Summarises (us : List RegUse) (n : BBRegInfoNode) : Prop where
  ld : ∀ er, ¬ er.IsZero → Widest (· ∈ readsBeforeWrite us er) (n.bb_ld_r_mp er)
  str : ∀ er, n.bb_str_r_mp er = lastWrite us er
  fresh : ∀ er, ¬ er.IsZero → Represents (available us er) (n.r_fresh_inst_mp.lookup er)

/-- **The join of two blocks composes**: it is the summary of the instructions of both, and a
third block may be joined with the second first. -/
def JoinComposes (P C : List DecodedInst) (nP nC : BBRegInfoNode) : Prop :=
  ∃ n, nP.join_reg_info_node nC = some n ∧ Summarises (usesOf (P ++ C)) n ∧
    ∀ D nD, liftBlock D = some nD →
      n.join_reg_info_node nD = (nC.join_reg_info_node nD).bind nP.join_reg_info_node

/-! ### What it is -/

/-- The first read of a register that is entered: of the parent, or of the child when the
parent neither enters a read nor writes. -/
def enteredRead (us vs : List RegUse) (er : EcvReg) : Option ERC :=
  (firstRead us er).or (if (firstWrite us er).isSome then none else firstRead vs er)

/-- The last value of a register: of the child when it writes the register or has a value as
wide, else of the parent. -/
def keptValue (us vs : List RegUse) (er : EcvReg) : Option FreshInst :=
  match lastValue us er, lastValue vs er with
  | old, none => old
  | none, some new => some new
  | some old, some new =>
      if (firstWrite vs er).isSome = true ∨ old.width ≤ new.width then some new else some old

/-- Where both blocks have a value of a register that the child does not write, the reads
they come from are counted. -/
def ClassesKnown (us vs : List RegUse) (er : EcvReg) : Prop :=
  ∀ old new, lastValue us er = some old → lastValue vs er = some new →
    firstWrite vs er = none → old.erc ≠ none ∧ new.erc ≠ none

/-- When the join of two blocks composes. -/
structure JoinMeets (us vs : List RegUse) : Prop where
  classes : ∀ er, ClassesKnown us vs er
  read : ∀ er, ¬ er.IsZero → Widest (· ∈ readsBeforeWrite (us ++ vs) er) (enteredRead us vs er)
  write : ∀ er, if (firstWrite vs er).isSome then firstWrite vs er = lastWrite vs er
    else firstWrite us er = lastWrite us er
  value : ∀ er v, ¬ er.IsZero → keptValue us vs er = some v →
    v.erc ≠ none ∧ (v.stored = true ∨ ∀ v' ∈ available (us ++ vs) er, v'.width ≤ v.width)

section Uses

variable {us vs : List RegUse} {er : EcvReg}

/-- The last write of two sequences. -/
theorem lastWrite_append :
    lastWrite (us ++ vs) er = (lastWrite vs er).or (lastWrite us er) := by
  unfold lastWrite
  rw [List.reverse_append, List.findSome?_append]

theorem firstWrite_isSome : (firstWrite us er).isSome = (lastWrite us er).isSome := by
  rw [Bool.eq_iff_iff]
  unfold firstWrite lastWrite
  rw [List.findSome?_isSome_iff, List.findSome?_isSome_iff]
  simp only [List.mem_reverse]

/-- A write ends the values before it. -/
theorem available_snoc (us : List RegUse) (u : RegUse) (er : EcvReg) :
    available (us ++ [u]) er =
      (if (u.writtenOf er).isSome then [] else available us er) ++ (u.leaves er).toList := by
  unfold available
  rw [List.foldl_append]
  rfl

theorem firstWrite_snoc (us : List RegUse) (u : RegUse) (er : EcvReg) :
    (firstWrite (us ++ [u]) er).isSome =
      ((u.writtenOf er).isSome || (firstWrite us er).isSome) := by
  rw [firstWrite_append, Option.isSome_or, Bool.or_comm, firstWrite, List.findSome?_singleton]

/-- What is available after the second part: when it writes the register, only its own. -/
theorem available_append :
    available (us ++ vs) er =
      (if (firstWrite vs er).isSome then [] else available us er) ++ available vs er := by
  induction vs using List.reverseRecOn with
  | nil =>
      rw [List.append_nil]
      exact (List.append_nil _).symm
  | append_singleton vs u ih =>
      rw [← List.append_assoc, available_snoc, available_snoc, firstWrite_snoc, ih]
      cases (u.writtenOf er).isSome with
      | true => rfl
      | false => exact List.append_assoc _ _ _

theorem leaves_eq_none {u : RegUse} : u.leaves er = none ↔ u.valueOf er = none := by
  cases u with
  | write info v order => exact Iff.rfl
  | read info counted value =>
      cases value with
      | none => exact iff_of_true rfl rfl
      | some v =>
          simp only [RegUse.leaves, RegUse.valueOf]
          by_cases he : info.1 = er
          · simp [he]
          · simp [he]

theorem leaves_of_valueOf {u : RegUse} {v : FreshInst} (h : u.valueOf er = some v)
    (hv : v.erc ≠ none) : u.leaves er = some v := by
  cases u with
  | write info v order => exact h
  | read info counted value =>
      cases value with
      | none => cases h
      | some v =>
          simp only [RegUse.valueOf] at h
          split at h
          · rename_i he
            cases h
            -- the class is entered where the read is counted
            cases counted with
            | true => exact if_pos he
            | false => exact absurd rfl hv
          · cases h

/-- A value that a use leaves has a class. -/
theorem erc_of_leaves {u : RegUse} {v : FreshInst} (h : u.leaves er = some v) :
    v.erc ≠ none := by
  cases u with
  | write info v order =>
      simp only [RegUse.leaves] at h
      split at h <;> cases h
      exact Option.some_ne_none _
  | read info counted value =>
      cases value with
      | none => cases h
      | some v =>
          simp only [RegUse.leaves] at h
          split at h <;> cases h
          exact Option.some_ne_none _

theorem writtenOf_of_leaves {u : RegUse} (h : u.leaves er = none) : u.writtenOf er = none := by
  cases u with
  | read => rfl
  | write info v order =>
      simp only [RegUse.leaves] at h
      split at h
      · cases h
      · rename_i he
        exact if_neg he

theorem lastValue_snoc (us : List RegUse) (u : RegUse) (er : EcvReg) :
    lastValue (us ++ [u]) er = (u.valueOf er).or (lastValue us er) := by
  rw [lastValue_append, lastValue_cons]
  rfl

/-- A register without an entry has no value that is available. -/
theorem lastValue_eq_none : lastValue us er = none ↔ available us er = [] := by
  induction us using List.reverseRecOn with
  | nil => exact iff_of_true rfl rfl
  | append_singleton us u ih =>
      rw [lastValue_snoc, available_snoc]
      cases hu : u.leaves er with
      | none =>
          rw [leaves_eq_none.mp hu, writtenOf_of_leaves hu, Option.none_or, ih]
          simp
      | some v =>
          have hv : u.valueOf er ≠ none := fun h => by
            rw [leaves_eq_none.mpr h] at hu
            cases hu
          obtain ⟨w, hw⟩ := Option.ne_none_iff_exists'.mp hv
          rw [hw]
          simp

/-- A value of a known class is there as what it is. -/
theorem mem_available {v : FreshInst} (h : lastValue us er = some v) (hv : v.erc ≠ none) :
    v ∈ available us er := by
  induction us using List.reverseRecOn with
  | nil => cases h
  | append_singleton us u ih =>
      rw [lastValue_snoc] at h
      rw [available_snoc]
      cases hu : u.valueOf er with
      | none =>
          rw [hu, Option.none_or] at h
          rw [writtenOf_of_leaves (leaves_eq_none.mpr hu)]
          exact List.mem_append_left _ (ih h)
      | some w =>
          rw [hu] at h
          cases h
          rw [leaves_of_valueOf hu hv]
          exact List.mem_append_right _ (List.mem_singleton.mpr rfl)

theorem erc_of_available {v : FreshInst} (h : v ∈ available us er) : v.erc ≠ none := by
  induction us using List.reverseRecOn with
  | nil => cases h
  | append_singleton us u ih =>
      rw [available_snoc, List.mem_append] at h
      rcases h with h | h
      · split at h
        · cases h
        · exact ih h
      · exact erc_of_leaves (Option.mem_toList.mp h)

theorem lastValue_of_write (h : (firstWrite us er).isSome = true) :
    (lastValue us er).isSome = true := by
  induction us using List.reverseRecOn with
  | nil => cases h
  | append_singleton us u ih =>
      rw [firstWrite_snoc, Bool.or_eq_true] at h
      rw [lastValue_snoc, Option.isSome_or, Bool.or_eq_true]
      refine h.imp (fun hw => ?_) ih
      by_contra hnone
      rw [Option.not_isSome_iff_eq_none] at hnone
      rw [writtenOf_of_leaves (leaves_eq_none.mpr hnone)] at hw
      cases hw

end Uses

/-! ### When the join composes -/

/-- The entries of a register in the summary of lifted instructions. -/
def summaryOf (us : List RegUse) (er : EcvReg) : RegSummary :=
  ⟨firstRead us er, firstWrite us er, lastValue us er⟩

/-- The summary of a lifted block is that of its uses. -/
theorem of_liftBlock {insts : List DecodedInst} {n : BBRegInfoNode}
    (h : liftBlock insts = some n) (er : EcvReg) : n.of er = summaryOf (usesOf insts) er := by
  have hr := liftBlock_records h
  unfold BBRegInfoNode.of summaryOf
  rw [hr.ld, hr.str, hr.fresh]
  simp only [BBRegInfoNode.empty, FreshMap.empty, Option.none_or, Option.or_none]

theorem valued_liftBlock {insts : List DecodedInst} {n : BBRegInfoNode}
    (h : liftBlock insts = some n) (er : EcvReg) : (n.of er).Valued := by
  rw [of_liftBlock h]
  exact lastValue_of_write

theorem usesOf_append (P C : List DecodedInst) : usesOf (P ++ C) = usesOf P ++ usesOf C :=
  List.flatMap_append

section Join

variable {us vs : List RegUse} {er : EcvReg}

theorem FreshInst.width_of_some {v : FreshInst} {erc : ERC} (h : v.erc = some erc) :
    v.width = ERCSize erc := by
  unfold FreshInst.width
  rw [h]
  rfl

/-- Where the classes are known the last value is kept as the widths say. -/
theorem joinFresh?_kept (h : ClassesKnown us vs er) :
    RegSummary.joinFresh? (firstWrite vs er).isSome (lastValue us er) (lastValue vs er) =
      some (keptValue us vs er) := by
  unfold keptValue
  cases hnew : lastValue vs er with
  | none => exact RegSummary.joinFresh?_none _ _
  | some new =>
      cases hold : lastValue us er with
      | none => exact RegSummary.joinFresh?_first _ _
      | some old =>
          cases hw : firstWrite vs er with
          | some erc => exact RegSummary.joinFresh?_stores _ _
          | none =>
              obtain ⟨ha, hb⟩ := h old new hold hnew hw
              obtain ⟨a, ha⟩ := Option.ne_none_iff_exists'.mp ha
              obtain ⟨b, hb⟩ := Option.ne_none_iff_exists'.mp hb
              have hwidth : ERCSize a ≤ ERCSize b ↔
                  ((none : Option ERC).isSome = true ∨ old.width ≤ new.width) := by
                rw [FreshInst.width_of_some ha, FreshInst.width_of_some hb]
                exact ⟨.inr, fun h => h.resolve_left Bool.false_ne_true⟩
              show (RegSummary.joinFresh false old new).map some = some (if _ then _ else _)
              rw [RegSummary.joinFresh_of_some ha hb, Option.map_some, apply_ite some]
              exact congrArg some (ite_congr (propext hwidth) (fun _ => rfl) fun _ => rfl)

/-- The entries of a register after the join. -/
def joinedOf (us vs : List RegUse) (er : EcvReg) : RegSummary :=
  ⟨enteredRead us vs er, (firstWrite vs er).or (firstWrite us er), keptValue us vs er⟩

/-- Two summaries join to the summary of both sequences. -/
theorem join_summaryOf (h : ClassesKnown us vs er) :
    (summaryOf us er).join (summaryOf vs er) = some (joinedOf us vs er) := by
  unfold RegSummary.join summaryOf
  simp only [joinFresh?_kept h]
  rfl

/-- Where the join does not end the run, the classes it compares are known. -/
theorem classesKnown_of_join {s : RegSummary}
    (h : (summaryOf us er).join (summaryOf vs er) = some s) : ClassesKnown us vs er := by
  intro old new hold hnew hw
  obtain ⟨o, ho, -⟩ := Option.map_eq_some_iff.mp h
  simp only [summaryOf, hold, hnew, hw] at ho
  obtain ⟨v, hv, -⟩ := Option.map_eq_some_iff.mp ho
  obtain ⟨a, b, ha, hb⟩ := RegSummary.joinFresh_eq_some hv
  rw [ha, hb]
  exact ⟨Option.some_ne_none a, Option.some_ne_none b⟩

theorem keptValue_eq_none :
    keptValue us vs er = none ↔ available (us ++ vs) er = [] := by
  rw [← lastValue_eq_none, lastValue_append]
  unfold keptValue
  cases lastValue vs er with
  | none => rfl
  | some new =>
      cases lastValue us er with
      | none => rfl
      | some old =>
          refine iff_of_false ?_ nofun
          show ¬ (if _ then _ else _) = none
          split <;> exact Option.some_ne_none _

/-- The value that is kept is one of those available, unless its class is not known. -/
theorem mem_available_of_kept {v : FreshInst} (h : keptValue us vs er = some v)
    (hv : v.erc ≠ none) : v ∈ available (us ++ vs) er := by
  rw [available_append]
  unfold keptValue at h
  cases hnew : lastValue vs er with
  | none =>
      rw [hnew] at h
      have hw : (firstWrite vs er).isSome = false := by
        by_contra hw
        have := lastValue_of_write (Bool.eq_true_of_not_eq_false hw)
        rw [hnew] at this
        cases this
      rw [hw]
      refine List.mem_append_left _ (mem_available ?_ hv)
      cases hold : lastValue us er <;> rw [hold] at h <;> exact h
  | some new =>
      cases hold : lastValue us er with
      | none =>
          rw [hnew, hold] at h
          cases h
          exact List.mem_append_right _ (mem_available hnew hv)
      | some old =>
          rw [hnew, hold] at h
          simp only at h
          split at h
          · cases h
            exact List.mem_append_right _ (mem_available hnew hv)
          · rename_i hkeep
            cases h
            rw [if_neg fun hw => hkeep (.inl hw)]
            exact List.mem_append_left _ (mem_available hold hv)

/-- The value that is kept represents the register. -/
theorem represents_kept_iff :
    Represents (available (us ++ vs) er) (keptValue us vs er) ↔
      ∀ v, keptValue us vs er = some v →
        v.erc ≠ none ∧ (v.stored = true ∨ ∀ v' ∈ available (us ++ vs) er, v'.width ≤ v.width) := by
  cases hk : keptValue us vs er with
  | none => exact iff_of_true (keptValue_eq_none.mp hk) nofun
  | some v =>
      constructor
      · rintro ⟨hmem, hwide⟩ w hw
        cases hw
        refine ⟨erc_of_available hmem, ?_⟩
        cases hs : v.stored with
        | true => exact .inl rfl
        | false => exact .inr (hwide hs)
      · intro h
        obtain ⟨hv, hwide⟩ := h v rfl
        refine ⟨mem_available_of_kept hk hv, fun hs => ?_⟩
        exact hwide.resolve_left fun ht => by rw [hs] at ht; cases ht

end Join

variable {P C : List DecodedInst} {nP nC n : BBRegInfoNode}

/-- The last writes are entered where the first of a block is as the last. -/
theorem str_joined_iff {us vs : List RegUse} {er : EcvReg} :
    (joinedOf us vs er).str = lastWrite (us ++ vs) er ↔
      if (firstWrite vs er).isSome then firstWrite vs er = lastWrite vs er
      else firstWrite us er = lastWrite us er := by
  show (firstWrite vs er).or (firstWrite us er) = _ ↔ _
  have hsome : (firstWrite vs er).isSome = (lastWrite vs er).isSome := firstWrite_isSome
  rw [lastWrite_append]
  cases hfirst : firstWrite vs er with
  | none =>
      rw [hfirst] at hsome
      have hlast : lastWrite vs er = none := by
        rw [← Option.not_isSome_iff_eq_none, ← hsome]
        exact Bool.false_ne_true
      rw [hlast]
      exact Iff.rfl
  | some erc =>
      rw [hfirst] at hsome
      obtain ⟨erc', hlast⟩ := Option.isSome_iff_exists.mp hsome.symm
      rw [hlast]
      exact Iff.rfl

/-- A joined node summarises both blocks exactly if every register meets the condition. -/
theorem summarises_iff {us vs : List RegUse} (h : ∀ er, n.of er = joinedOf us vs er)
    (hclasses : ∀ er, ClassesKnown us vs er) :
    Summarises (us ++ vs) n ↔ JoinMeets us vs := by
  have hld : ∀ er, n.bb_ld_r_mp er = enteredRead us vs er := fun er =>
    congrArg RegSummary.ld (h er)
  have hstr : ∀ er, n.bb_str_r_mp er = (joinedOf us vs er).str := fun er =>
    congrArg RegSummary.str (h er)
  have hfresh : ∀ er, n.r_fresh_inst_mp.lookup er = keptValue us vs er := fun er =>
    congrArg RegSummary.fresh (h er)
  constructor
  · rintro ⟨ld, str, fresh⟩
    refine ⟨hclasses, fun er hz => hld er ▸ ld er hz, fun er => ?_, fun er v hz hv => ?_⟩
    · exact str_joined_iff.mp ((hstr er).symm.trans (str er))
    · exact represents_kept_iff.mp (hfresh er ▸ fresh er hz) v hv
  · rintro ⟨-, read, write, value⟩
    refine ⟨fun er hz => ?_, fun er => ?_, fun er hz => ?_⟩
    · rw [hld]
      exact read er hz
    · rw [hstr]
      exact str_joined_iff.mpr (write er)
    · rw [hfresh]
      exact represents_kept_iff.mpr fun v hv => value er v hz hv

/-- **The join of two blocks is the summary of the instructions of both, and associates,
exactly when the blocks meet the conditions.** -/
theorem joinComposes_iff (hP : liftBlock P = some nP) (hC : liftBlock C = some nC) :
    JoinComposes P C nP nC ↔ JoinMeets (usesOf P) (usesOf C) := by
  have hjoin : ∀ er, (nP.of er).join (nC.of er) =
      (summaryOf (usesOf P) er).join (summaryOf (usesOf C) er) := fun er => by
    rw [of_liftBlock hP, of_liftBlock hC]
  constructor
  · rintro ⟨n, hn, hs, -⟩
    have hclasses : ∀ er, ClassesKnown (usesOf P) (usesOf C) er := fun er =>
      classesKnown_of_join ((hjoin er).symm.trans (BBRegInfoNode.join_at.mp hn er))
    refine (summarises_iff (fun er => ?_) hclasses).mp (usesOf_append P C ▸ hs)
    rw [← Option.some_inj, ← BBRegInfoNode.join_at.mp hn er, hjoin,
      join_summaryOf (hclasses er)]
  · intro h
    have hat : ∀ er, (nP.of er).join (nC.of er) =
        some (joinedOf (usesOf P) (usesOf C) er) := fun er => by
      rw [hjoin, join_summaryOf (h.classes er)]
    obtain ⟨n, hn⟩ := BBRegInfoNode.exists_join fun er => ⟨_, hat er⟩
    refine ⟨n, hn, ?_, fun D nD hD => ?_⟩
    · rw [usesOf_append]
      refine (summarises_iff (fun er => ?_) h.classes).mpr h
      rw [← Option.some_inj, ← BBRegInfoNode.join_at.mp hn er, hat]
    · exact BBRegInfoNode.join_reg_info_node_assoc (valued_liftBlock hC) (valued_liftBlock hD) hn

theorem joinComposes_iff_clz :
    ∃ nP nC, liftBlock [unaryInst 0 .RegW 1 0] = some nP ∧
      liftBlock [unaryInst 4 .RegX 2 0] = some nC ∧
      (JoinComposes [unaryInst 0 .RegW 1 0] [unaryInst 4 .RegX 2 0] nP nC ↔
        JoinMeets (usesOf [unaryInst 0 .RegW 1 0]) (usesOf [unaryInst 4 .RegX 2 0])) :=
  ⟨_, _, rfl, rfl, joinComposes_iff rfl rfl⟩

/-- After `CLZ W1, W0` the read of `CLZ X2, X0` leaves the class of the register narrow. -/
theorem not_joinComposes_clz :
    ∃ nP nC, liftBlock [unaryInst 0 .RegW 1 0] = some nP ∧
      liftBlock [unaryInst 4 .RegX 2 0] = some nC ∧
      ¬ JoinComposes [unaryInst 0 .RegW 1 0] [unaryInst 4 .RegX 2 0] nP nC := by
  obtain ⟨nP, hP⟩ : ∃ nP, liftBlock [unaryInst 0 .RegW 1 0] = some nP := ⟨_, rfl⟩
  obtain ⟨nC, hC⟩ : ∃ nC, liftBlock [unaryInst 4 .RegX 2 0] = some nC := ⟨_, rfl⟩
  refine ⟨nP, nC, hP, hC, ?_⟩
  rintro ⟨n, hn, hs, -⟩
  have hz : ¬ EcvReg.IsZero ⟨.General, 0⟩ := by
    unfold EcvReg.IsZero
    decide
  have hjoin := BBRegInfoNode.join_at.mp hn ⟨.General, 0⟩
  rw [of_liftBlock hP, of_liftBlock hC] at hjoin
  obtain ⟨_, _, hof⟩ := Option.map_eq_some_iff.mp hjoin
  have hld : n.bb_ld_r_mp ⟨.General, 0⟩ = some .RegW := (congrArg RegSummary.ld hof).symm.trans rfl
  have hwide := hs.ld _ hz
  rw [hld] at hwide
  have hread : ERC.RegX ∈ readsBeforeWrite
      (usesOf ([unaryInst 0 .RegW 1 0] ++ [unaryInst 4 .RegX 2 0])) ⟨.General, 0⟩ := by
    show ERC.RegX ∈ [ERC.RegW, ERC.RegX]
    exact List.mem_cons_of_mem _ List.mem_cons_self
  exact absurd (hwide.2 _ hread) (by decide)

end Elfconv
