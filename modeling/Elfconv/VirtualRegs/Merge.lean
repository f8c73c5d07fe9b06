/-
Elfconv/VirtualRegs/Merge.lean

What one merge of two bags does to the bags of a function.

`Partition` says that the bags stand for classes of blocks that lie in one component each:
the pointers lead to one true bag of each class, parents and children are those of the
graph of the classes, and a true bag holds the registers of all blocks of its class.  The
own loads of a bag start with those of the block it is named after and only grow
(`Partition.own_self`).  It
holds at the start, and `translate` keeps it.
-/
import Elfconv.Lib.Component
import Elfconv.VirtualRegs.Bags

namespace Elfconv

open Component

variable {β : Type} [DecidableEq β]

/-- `p` is a parent of `b`. -/
def BlockGraph.Edge (f : BlockGraph β) (p b : β) : Prop := p ∈ f.bb_parents b

theorem PtrOrder.mem_iter {order : PtrOrder β} {s : Finset β} {b : β} :
    b ∈ order.iter s ↔ b ∈ s := by
  simp [PtrOrder.iter, order.complete b]

namespace BagGraph

variable {g : BagGraph β} {order : PtrOrder β} {b p c x target_bag moved_bag : β}

/-! ### Links -/

/-- A bag is changed, and no other. -/
theorem modify_node (f : PhiRegsBBBagNode β → PhiRegsBBBagNode β) :
    (g.modify p f).node b = if b = p then f (g.node b) else g.node b := by
  simp only [modify, Function.update_apply]
  split
  · rename_i h
    rw [h]
  · rfl

/-- A field that `f` leaves as it is. -/
theorem modify_field {γ : Type} (field : PhiRegsBBBagNode β → γ)
    {f : PhiRegsBBBagNode β → PhiRegsBBBagNode β} (hf : ∀ n, field (f n) = field n) :
    field ((g.modify p f).node b) = field (g.node b) := by
  rw [modify_node]
  split
  · exact hf _
  · rfl

/-- Linking two bags adds one child. -/
theorem mem_children_link :
    x ∈ ((g.link p c).node b).children ↔ x ∈ (g.node b).children ∨ (b, x) = (p, c) := by
  have hc : ((g.link p c).node b).children = ((g.addChild p c).node b).children := by
    rw [link, addParent, modify_field (·.children)]
    intro n
    rfl
  rw [hc, addChild, modify_node]
  split
  · rename_i h
    rw [Finset.mem_insert, or_comm, Prod.mk.injEq, and_iff_right h]
  · rename_i h
    rw [Prod.mk.injEq, or_iff_left fun e => h e.1]

/-- Linking two bags adds one parent. -/
theorem mem_parents_link :
    x ∈ ((g.link p c).node b).parents ↔ x ∈ (g.node b).parents ∨ (x, b) = (p, c) := by
  have hp : ((g.addChild p c).node b).parents = (g.node b).parents := by
    rw [addChild, modify_field (·.parents)]
    intro n
    rfl
  rw [link, addParent, modify_node]
  split
  · rename_i h
    rw [Finset.mem_insert, hp, or_comm, Prod.mk.injEq, and_iff_left h]
  · rename_i h
    rw [hp, Prod.mk.injEq, or_iff_left fun e => h e.2]

/-- A field that is none of the families. -/
theorem link_field {γ : Type} (field : PhiRegsBBBagNode β → γ)
    (hf : ∀ n parents children,
      field { n with parents := parents, children := children } = field n) :
    field ((g.link p c).node b) = field (g.node b) := by
  rw [link, addParent, modify_field field fun n => hf n _ n.children, addChild,
    modify_field field fun n => hf n n.parents _]

/-- The children after a list of links, by induction on the list. -/
theorem mem_children_linkAll (es : List (β × β)) :
    x ∈ ((g.linkAll es).node b).children ↔ x ∈ (g.node b).children ∨ (b, x) ∈ es := by
  induction es generalizing g with
  | nil => simp [linkAll]
  | cons e es ih =>
      rw [linkAll, List.foldl_cons, ← linkAll, ih, mem_children_link, List.mem_cons, or_assoc]

/-- The parents after a list of links. -/
theorem mem_parents_linkAll (es : List (β × β)) :
    x ∈ ((g.linkAll es).node b).parents ↔ x ∈ (g.node b).parents ∨ (x, b) ∈ es := by
  induction es generalizing g with
  | nil => simp [linkAll]
  | cons e es ih =>
      rw [linkAll, List.foldl_cons, ← linkAll, ih, mem_parents_link, List.mem_cons, or_assoc]

/-- Links leave every other field as it is. -/
theorem linkAll_field {γ : Type} (field : PhiRegsBBBagNode β → γ)
    (hf : ∀ n parents children, field { n with parents := parents, children := children } = field n)
    (es : List (β × β)) : field ((g.linkAll es).node b) = field (g.node b) := by
  induction es generalizing g with
  | nil => rfl
  | cons e es ih =>
      rw [linkAll, List.foldl_cons, ← linkAll, ih, link_field field hf]

theorem bag_num_linkAll (es : List (β × β)) : (g.linkAll es).bag_num = g.bag_num := by
  induction es generalizing g with
  | nil => rfl
  | cons e es ih =>
      rw [linkAll, List.foldl_cons, ← linkAll, ih]
      rfl

/-! ### The fields after a merge -/

/-- `converted_bag` is the only field that is converted. -/
theorem convert_field {γ : Type} (field : PhiRegsBBBagNode β → γ)
    (hf : ∀ n bag, field { n with converted_bag := bag } = field n) :
    field ((g.convert moved_bag target_bag).node b) = field (g.node b) :=
  modify_field field fun n => hf n _

/-- `in_bbs` is the only field that the blocks are merged in. -/
theorem blocks_field {γ : Type} (field : PhiRegsBBBagNode β → γ)
    (hf : ∀ n in_bbs, field { n with in_bbs := in_bbs } = field n) :
    field ((g.MergeBlocks target_bag moved_bag).node b) = field (g.node b) :=
  modify_field field fun n => hf n _

/-- The registers are merged in two fields. -/
theorem regs_field {γ : Type} (field : PhiRegsBBBagNode β → γ)
    (hf : ∀ n ld str, field { n with own_ld_rmp := ld, own_str_rmp := str } = field n) :
    field ((g.MergeOwnRegs target_bag moved_bag).node b) = field (g.node b) :=
  modify_field field fun n => hf n _ _

/-- The moved bag is converted to the target. -/
theorem converted_bag_convert :
    (g.convert moved_bag target_bag).converted_bag =
      Function.update g.converted_bag moved_bag target_bag := by
  funext b
  simp only [converted_bag, convert, modify_node, Function.update_apply]
  split <;> rfl

variable [Fintype β]

/-- Merging the families leaves every other field as it is. -/
theorem family_field {γ : Type} (field : PhiRegsBBBagNode β → γ)
    (hf : ∀ n parents children,
      field { n with parents := parents, children := children } = field n) :
    field ((g.MergeFamilyBags order target_bag moved_bag).node b) = field (g.node b) := by
  rw [MergeFamilyBags, linkAll_field field hf, linkAll_field field hf]

/-- A field that no merge touches. -/
theorem translate_field {γ : Type} (field : PhiRegsBBBagNode β → γ)
    (hf : ∀ n ld str in_bbs parents children bag,
      field { n with
        own_ld_rmp := ld, own_str_rmp := str, in_bbs := in_bbs, parents := parents,
        children := children, converted_bag := bag } = field n) :
    field ((g.translate order target_bag moved_bag).node b) = field (g.node b) := by
  rw [translate,
    convert_field field fun n => hf n n.own_ld_rmp n.own_str_rmp n.in_bbs n.parents n.children,
    blocks_field field
      fun n _ => hf n n.own_ld_rmp n.own_str_rmp _ n.parents n.children n.converted_bag,
    family_field field fun n _ _ => hf n n.own_ld_rmp n.own_str_rmp n.in_bbs _ _ n.converted_bag,
    regs_field field fun n _ _ => hf n _ _ n.in_bbs n.parents n.children n.converted_bag]

/-- The target takes the loads of the moved bag. -/
theorem own_ld_translate :
    ((g.translate order target_bag moved_bag).node b).own_ld_rmp =
      if b = target_bag then (g.node b).own_ld_rmp.merge (g.node moved_bag).own_ld_rmp
      else (g.node b).own_ld_rmp := by
  rw [translate, convert_field (·.own_ld_rmp) fun _ _ => rfl,
    blocks_field (·.own_ld_rmp) fun _ _ => rfl, family_field (·.own_ld_rmp) fun _ _ _ => rfl,
    MergeOwnRegs, modify_node]
  split <;> rfl

/-- The target takes the stores of the moved bag. -/
theorem own_str_translate :
    ((g.translate order target_bag moved_bag).node b).own_str_rmp =
      if b = target_bag then (g.node b).own_str_rmp.merge (g.node moved_bag).own_str_rmp
      else (g.node b).own_str_rmp := by
  rw [translate, convert_field (·.own_str_rmp) fun _ _ => rfl,
    blocks_field (·.own_str_rmp) fun _ _ => rfl, family_field (·.own_str_rmp) fun _ _ _ => rfl,
    MergeOwnRegs, modify_node]
  split <;> rfl

/-- The target takes the blocks of the moved bag. -/
theorem in_bbs_translate :
    ((g.translate order target_bag moved_bag).node b).in_bbs =
      if b = target_bag then (g.node b).in_bbs ∪ (g.node moved_bag).in_bbs
      else (g.node b).in_bbs := by
  have hin : ∀ b, (((g.MergeOwnRegs target_bag moved_bag).MergeFamilyBags order target_bag
      moved_bag).node b).in_bbs = (g.node b).in_bbs := by
    intro b
    rw [family_field (·.in_bbs) fun _ _ _ => rfl, regs_field (·.in_bbs) fun _ _ _ => rfl]
  rw [translate, convert_field (·.in_bbs) fun _ _ => rfl, MergeBlocks, modify_node]
  split
  · rw [hin, hin]
  · exact hin b

/-- A merge converts the moved bag, and no other. -/
theorem converted_bag_translate (order : PtrOrder β) :
    (g.translate order target_bag moved_bag).converted_bag =
      Function.update g.converted_bag moved_bag target_bag := by
  have hbefore : (((g.MergeOwnRegs target_bag moved_bag).MergeFamilyBags order target_bag
      moved_bag).MergeBlocks target_bag moved_bag).converted_bag = g.converted_bag := by
    funext b
    exact (blocks_field (·.converted_bag) fun _ _ => rfl).trans
      ((family_field (·.converted_bag) fun _ _ _ => rfl).trans
        (regs_field (·.converted_bag) fun _ _ _ => rfl))
  rw [translate, converted_bag_convert, hbefore]

/-- The children that `MergeFamilyBags` finds: those of the merged bag, and the target
when the merged bag was its own parent. -/
def MovedChild (g : BagGraph β) (target_bag moved_bag c : β) : Prop :=
  c ∈ (g.node moved_bag).children ∨
    c = target_bag ∧ ∃ p ∈ (g.node moved_bag).parents, g.GetTrueBag p = moved_bag

/-- The parents of the moved bag get the target as a child, and the target gets its children. -/
theorem mem_children_family :
    x ∈ ((g.MergeFamilyBags order target_bag moved_bag).node b).children ↔
      x ∈ (g.node b).children ∨
        (x = target_bag ∧ ∃ p ∈ (g.node moved_bag).parents, g.GetTrueBag p = b) ∨
        (b = target_bag ∧ ∃ c, g.MovedChild target_bag moved_bag c ∧ g.GetTrueBag c = x) := by
  simp only [MergeFamilyBags, mem_children_linkAll, List.mem_map, PtrOrder.mem_iter, MovedChild,
    Prod.mk.injEq, or_assoc]
  grind

/-- The target gets the parents of the moved bag, and its children get the target as a parent. -/
theorem mem_parents_family :
    x ∈ ((g.MergeFamilyBags order target_bag moved_bag).node b).parents ↔
      x ∈ (g.node b).parents ∨
        (b = target_bag ∧ ∃ p ∈ (g.node moved_bag).parents, g.GetTrueBag p = x) ∨
        (x = target_bag ∧ ∃ c, g.MovedChild target_bag moved_bag c ∧ g.GetTrueBag c = b) := by
  simp only [MergeFamilyBags, mem_parents_linkAll, mem_children_linkAll, List.mem_map,
    PtrOrder.mem_iter, MovedChild, Prod.mk.injEq, or_assoc]
  grind

theorem getTrueBag_regs : (g.MergeOwnRegs p c).GetTrueBag = g.GetTrueBag := by
  have hconv : (g.MergeOwnRegs p c).converted_bag = g.converted_bag :=
    funext fun _ => regs_field (·.converted_bag) fun _ _ _ => rfl
  unfold GetTrueBag
  rw [hconv]

/-- The children after a merge: those before, and those of the moved family. -/
theorem mem_children_translate :
    x ∈ ((g.translate order target_bag moved_bag).node b).children ↔
      x ∈ (g.node b).children ∨
        (x = target_bag ∧ ∃ p ∈ (g.node moved_bag).parents, g.GetTrueBag p = b) ∨
        (b = target_bag ∧ ∃ c, g.MovedChild target_bag moved_bag c ∧ g.GetTrueBag c = x) := by
  rw [translate, convert_field (·.children) fun _ _ => rfl,
    blocks_field (·.children) fun _ _ => rfl, mem_children_family, getTrueBag_regs]
  simp only [MovedChild, getTrueBag_regs, regs_field (·.children) fun _ _ _ => rfl,
    regs_field (·.parents) fun _ _ _ => rfl]

/-- The parents after a merge: those before, and those of the moved family. -/
theorem mem_parents_translate :
    x ∈ ((g.translate order target_bag moved_bag).node b).parents ↔
      x ∈ (g.node b).parents ∨
        (b = target_bag ∧ ∃ p ∈ (g.node moved_bag).parents, g.GetTrueBag p = x) ∨
        (x = target_bag ∧ ∃ c, g.MovedChild target_bag moved_bag c ∧ g.GetTrueBag c = b) := by
  rw [translate, convert_field (·.parents) fun _ _ => rfl,
    blocks_field (·.parents) fun _ _ => rfl, mem_parents_family, getTrueBag_regs]
  simp only [MovedChild, getTrueBag_regs, regs_field (·.children) fun _ _ _ => rfl,
    regs_field (·.parents) fun _ _ _ => rfl]

/-- A merge takes one bag away. -/
theorem bag_num_translate : (g.translate order target_bag moved_bag).bag_num = g.bag_num - 1 := by
  have hbefore : (((g.MergeOwnRegs target_bag moved_bag).MergeFamilyBags order target_bag
      moved_bag).MergeBlocks target_bag moved_bag).bag_num = g.bag_num := by
    rw [MergeBlocks, modify, MergeFamilyBags, bag_num_linkAll, bag_num_linkAll]
    rfl
  rw [translate, convert, hbefore]

/-- The true bags after the merge. -/
def collapse (target_bag moved_bag b : β) : β := if b = moved_bag then target_bag else b

/-- After a merge the true bag of a block is the old one, with the moved bag taken for the target.
-/
theorem getTrueBag_translate (hg : Forest.Grounded g.converted_bag)
    (ht : g.converted_bag target_bag = target_bag) (hm : g.converted_bag moved_bag = moved_bag)
    (hne : moved_bag ≠ target_bag) :
    Forest.Grounded (g.translate order target_bag moved_bag).converted_bag ∧
      (g.translate order target_bag moved_bag).GetTrueBag =
        collapse target_bag moved_bag ∘ g.GetTrueBag := by
  obtain ⟨hg', hroot⟩ := Forest.redirect hg hm ht hne
  rw [← converted_bag_translate order] at hg' hroot
  exact ⟨hg', funext hroot⟩

/-! ### Partitions -/

/-- The classes of a register in the blocks of the bag. -/
def ClassIn (g : BagGraph β) (b : β) (mp : β → EcvRegMap) (er : EcvReg) (erc : ERC) : Prop :=
  ∃ x, g.GetTrueBag x = b ∧ mp x er = some erc

/-- The bags stand for classes of blocks that lie in one component each. -/
structure Partition (f : BlockGraph β) (g : BagGraph β) : Prop where
  grounded : Forest.Grounded g.converted_bag
  component : ∀ b, Mutual f.Edge b (g.GetTrueBag b)
  converse : ∀ p c, p ∈ (g.node c).parents ↔ c ∈ (g.node p).children
  child_sound : ∀ p c, c ∈ (g.node p).children →
    g.GetTrueBag p = g.GetTrueBag c ∨
      Between f.Edge g.GetTrueBag (g.GetTrueBag p) (g.GetTrueBag c)
  child_complete : ∀ a b, Between f.Edge g.GetTrueBag a b →
    ∃ c ∈ (g.node a).children, g.GetTrueBag c = b
  parent_complete : ∀ a b, Between f.Edge g.GetTrueBag a b →
    ∃ p ∈ (g.node b).parents, g.GetTrueBag p = a
  own_ld : ∀ b, g.converted_bag b = b → ∀ er,
    Widest (g.ClassIn b f.bb_ld_r_mp er) ((g.node b).own_ld_rmp er)
  own_str : ∀ b, g.converted_bag b = b → ∀ er,
    Widest (g.ClassIn b f.bb_str_r_mp er) ((g.node b).own_str_rmp er)
  own_self : ∀ b er erc, f.bb_ld_r_mp b er = some erc →
    ∃ erc', (g.node b).own_ld_rmp er = some erc' ∧ (erc' = erc ∨ ERCSize erc < ERCSize erc')
  in_bbs : ∀ b, g.converted_bag b = b → ∀ x, x ∈ (g.node b).in_bbs ↔ g.GetTrueBag x = b
  bag_num : g.bag_num = (Finset.univ.filter fun b => g.converted_bag b = b).card
  sucs_ld : ∀ b, (g.node b).sucs_ld_rmp = f.bb_ld_r_mp b
  pres : ∀ b er, (g.node b).pres_ld_rmp er = none ∧ (g.node b).pres_str_rmp er = none

variable {f : BlockGraph β}

/-- A bag that is not converted is its own true bag. -/
theorem Partition.true_iff (h : Partition f g) : g.converted_bag b = b ↔ g.GetTrueBag b = b :=
  Forest.fixed_iff_root h.grounded

theorem Partition.getTrueBag_idem (h : Partition f g) (b : β) :
    g.GetTrueBag (g.GetTrueBag b) = g.GetTrueBag b :=
  Forest.root_root h.grounded b

/-- A true bag is not converted. -/
theorem Partition.true_getTrueBag (h : Partition f g) (b : β) :
    g.converted_bag (g.GetTrueBag b) = g.GetTrueBag b :=
  h.true_iff.mpr (h.getTrueBag_idem b)

omit [Fintype β] in
theorem collapse_moved : collapse target_bag moved_bag moved_bag = target_bag := if_pos rfl

omit [Fintype β] in
theorem collapse_of_ne (h : b ≠ moved_bag) : collapse target_bag moved_bag b = b := if_neg h

omit [Fintype β] in
/-- The target and the moved bag collapse to the target. -/
theorem collapse_eq_target_iff :
    collapse target_bag moved_bag b = target_bag ↔ b = target_bag ∨ b = moved_bag := by
  unfold collapse
  split
  · rename_i h
    exact iff_of_true rfl (.inr h)
  · rename_i h
    exact (or_iff_left h).symm

omit [Fintype β] in
/-- Other bags stay apart. -/
theorem collapse_eq_iff (hne : c ≠ target_bag) (hc : c ≠ moved_bag) :
    collapse target_bag moved_bag b = c ↔ b = c := by
  unfold collapse
  split
  · rename_i h
    exact iff_of_false (Ne.symm hne) (fun e => hc (e.symm.trans h))
  · rfl

section Translate

variable (h : Partition f g) (ht : g.converted_bag target_bag = target_bag)
  (hm : g.converted_bag moved_bag = moved_bag) (hne : moved_bag ≠ target_bag)

include h ht hm hne

theorem translate_getTrueBag (order : PtrOrder β) (b : β) :
    (g.translate order target_bag moved_bag).GetTrueBag b =
      collapse target_bag moved_bag (g.GetTrueBag b) :=
  congrFun (getTrueBag_translate h.grounded ht hm hne).2 b

omit h ht hm in
/-- The true bags are those of before but for the merged one. -/
theorem translate_true_iff :
    (g.translate order target_bag moved_bag).converted_bag b = b ↔
      g.converted_bag b = b ∧ b ≠ moved_bag := by
  rw [converted_bag_translate, Function.update_apply]
  split
  · rename_i hb
    exact iff_of_false (fun e => hne (hb.symm.trans e.symm)) fun e => e.2 hb
  · rename_i hb
    exact (and_iff_left hb).symm

/-- The classes of the target are its own and those of the merged bag. -/
theorem translate_classIn (mp : β → EcvRegMap) (er : EcvReg) (erc : ERC)
    (hb : (g.translate order target_bag moved_bag).converted_bag b = b) :
    (g.translate order target_bag moved_bag).ClassIn b mp er erc ↔
      if b = target_bag then g.ClassIn b mp er erc ∨ g.ClassIn moved_bag mp er erc
      else g.ClassIn b mp er erc := by
  have hbm := ((translate_true_iff hne).mp hb).2
  simp only [ClassIn, translate_getTrueBag h ht hm hne]
  split
  · rename_i hbt
    subst hbt
    simp only [collapse_eq_target_iff, or_and_right, exists_or]
  · rename_i hbt
    simp only [collapse_eq_iff hbt hbm]

/-- A map that is merged like the registers stays the widest of the blocks of its bag. -/
theorem translate_widest {mp : β → EcvRegMap} {field : PhiRegsBBBagNode β → EcvRegMap}
    {er : EcvReg}
    (hfield : field ((g.translate order target_bag moved_bag).node b) =
      if b = target_bag then (field (g.node b)).merge (field (g.node moved_bag))
      else field (g.node b))
    (hg : ∀ b, g.converted_bag b = b → Widest (g.ClassIn b mp er) (field (g.node b) er))
    (hb : (g.translate order target_bag moved_bag).converted_bag b = b) :
    Widest ((g.translate order target_bag moved_bag).ClassIn b mp er)
      (field ((g.translate order target_bag moved_bag).node b) er) := by
  have hbg := ((translate_true_iff hne).mp hb).1
  have hclass := fun erc => translate_classIn h ht hm hne mp er erc hb
  rw [hfield]
  split
  · rename_i hbt
    refine ((hg b hbg).merge (hg moved_bag hm)).congr fun erc => ?_
    rw [hclass erc, if_pos hbt]
  · rename_i hbt
    refine (hg b hbg).congr fun erc => ?_
    rw [hclass erc, if_neg hbt]

/-- An edge of the old graph of classes, seen in the new one. -/
theorem translate_between (order : PtrOrder β) {a b : β} (hab : Between f.Edge g.GetTrueBag a b) :
    collapse target_bag moved_bag a = collapse target_bag moved_bag b ∨
      Between f.Edge (g.translate order target_bag moved_bag).GetTrueBag
        (collapse target_bag moved_bag a) (collapse target_bag moved_bag b) := by
  rw [(getTrueBag_translate h.grounded ht hm hne).2]
  exact hab.collapse _

/-- A child found for the merged bag leads from its class to that of the child. -/
theorem movedChild_sound {c : β} (hc : g.MovedChild target_bag moved_bag c) :
    target_bag = collapse target_bag moved_bag (g.GetTrueBag c) ∨
      Between f.Edge (g.translate order target_bag moved_bag).GetTrueBag target_bag
        (collapse target_bag moved_bag (g.GetTrueBag c)) := by
  rcases hc with hc | ⟨rfl, -⟩
  · have hmoved : collapse target_bag moved_bag (g.GetTrueBag moved_bag) = target_bag := by
      rw [h.true_iff.mp hm, collapse_moved]
    rcases h.child_sound moved_bag c hc with he | he
    · exact .inl (by rw [← he, hmoved])
    · have := translate_between h ht hm hne order he
      rwa [hmoved] at this
  · exact .inl (by rw [h.true_iff.mp ht, collapse_of_ne (Ne.symm hne)])

/-- Every child after a merge is the end of an edge between the bags, or the bag itself. -/
theorem translate_child_sound (p c : β)
    (hc : c ∈ ((g.translate order target_bag moved_bag).node p).children) :
    (g.translate order target_bag moved_bag).GetTrueBag p =
        (g.translate order target_bag moved_bag).GetTrueBag c ∨
      Between f.Edge (g.translate order target_bag moved_bag).GetTrueBag
        ((g.translate order target_bag moved_bag).GetTrueBag p)
        ((g.translate order target_bag moved_bag).GetTrueBag c) := by
  have hrep := translate_getTrueBag h ht hm hne order
  have htarget : collapse target_bag moved_bag (g.GetTrueBag target_bag) = target_bag := by
    rw [h.true_iff.mp ht, collapse_of_ne (Ne.symm hne)]
  have htrue : ∀ b, collapse target_bag moved_bag (g.GetTrueBag (g.GetTrueBag b)) =
      collapse target_bag moved_bag (g.GetTrueBag b) := fun b => by rw [h.getTrueBag_idem]
  rw [hrep p, hrep c]
  rcases mem_children_translate.mp hc with hc | ⟨rfl, p₀, hp₀, rfl⟩ | ⟨rfl, c₀, hc₀, rfl⟩
  · rcases h.child_sound p c hc with he | he
    · exact .inl (congrArg _ he)
    · exact translate_between h ht hm hne order he
  · -- a parent of the merged bag becomes one of the target
    rw [htrue, htarget]
    rcases h.child_sound p₀ moved_bag ((h.converse p₀ moved_bag).mp hp₀) with he | he
    · exact .inl (by rw [he, h.true_iff.mp hm, collapse_moved])
    · have := translate_between h ht hm hne order he
      rwa [h.true_iff.mp hm, collapse_moved] at this
  · rw [htrue, htarget]
    exact movedChild_sound h ht hm hne hc₀

/-- Every edge between the bags after a merge has its child. -/
theorem translate_child_complete (a b : β)
    (hab : Between f.Edge (g.translate order target_bag moved_bag).GetTrueBag a b) :
    ∃ c ∈ ((g.translate order target_bag moved_bag).node a).children,
      (g.translate order target_bag moved_bag).GetTrueBag c = b := by
  rw [(getTrueBag_translate h.grounded ht hm hne).2] at hab
  obtain ⟨a, b, rfl, rfl, hold⟩ := between_collapse hab
  obtain ⟨c, hc, rfl⟩ := h.child_complete a b hold
  simp only [translate_getTrueBag h ht hm hne, mem_children_translate]
  by_cases ha : a = moved_bag
  · subst ha
    refine ⟨g.GetTrueBag c, .inr (.inr ⟨collapse_moved, c, .inl hc, rfl⟩), ?_⟩
    rw [h.getTrueBag_idem]
  · exact ⟨c, .inl (by rwa [collapse_of_ne ha]), rfl⟩

/-- Every edge between the bags after a merge has its parent. -/
theorem translate_parent_complete (a b : β)
    (hab : Between f.Edge (g.translate order target_bag moved_bag).GetTrueBag a b) :
    ∃ p ∈ ((g.translate order target_bag moved_bag).node b).parents,
      (g.translate order target_bag moved_bag).GetTrueBag p = a := by
  rw [(getTrueBag_translate h.grounded ht hm hne).2] at hab
  obtain ⟨a, b, rfl, rfl, hold⟩ := between_collapse hab
  obtain ⟨p, hp, rfl⟩ := h.parent_complete a b hold
  simp only [translate_getTrueBag h ht hm hne, mem_parents_translate]
  by_cases hb : b = moved_bag
  · subst hb
    refine ⟨g.GetTrueBag p, .inr (.inl ⟨collapse_moved, p, hp, rfl⟩), ?_⟩
    rw [h.getTrueBag_idem]
  · exact ⟨p, .inl (by rwa [collapse_of_ne hb]), rfl⟩

/-- **A merge inside a component keeps the partition.** -/
theorem Partition.translate (hmutual : Mutual f.Edge moved_bag target_bag) :
    Partition f (g.translate order target_bag moved_bag) where
  grounded := (getTrueBag_translate h.grounded ht hm hne).1
  component b := by
    rw [translate_getTrueBag h ht hm hne]
    by_cases hb : g.GetTrueBag b = moved_bag
    · have := (h.component b).trans (hb ▸ hmutual)
      rwa [hb, collapse_moved]
    · rw [collapse_of_ne hb]
      exact h.component b
  converse p c := by
    rw [mem_parents_translate, mem_children_translate, h.converse]
  child_sound := translate_child_sound h ht hm hne
  child_complete := translate_child_complete h ht hm hne
  parent_complete := translate_parent_complete h ht hm hne
  -- the target takes over the classes and the blocks of the moved bag
  own_ld b hb er := translate_widest h ht hm hne own_ld_translate (fun b hb => h.own_ld b hb er) hb
  own_str b hb er :=
    translate_widest h ht hm hne own_str_translate (fun b hb => h.own_str b hb er) hb
  own_self b er erc hb := by
    obtain ⟨erc', hown, hle⟩ := h.own_self b er erc hb
    rw [own_ld_translate]
    split
    · obtain ⟨erc'', hmerge, hle'⟩ := EcvRegMap.merge_keeps (g.node moved_bag).own_ld_rmp hown
      refine ⟨erc'', hmerge, ?_⟩
      rcases hle with rfl | hle
      · exact hle'
      · rcases hle' with rfl | hle'
        · exact .inr hle
        · exact .inr (Nat.lt_trans hle hle')
    · exact ⟨erc', hown, hle⟩
  in_bbs b hb x := by
    obtain ⟨hbg, hbm⟩ := (translate_true_iff hne).mp hb
    rw [in_bbs_translate, translate_getTrueBag h ht hm hne]
    split
    · rename_i hbt
      rw [Finset.mem_union, h.in_bbs b hbg, h.in_bbs moved_bag hm, hbt, collapse_eq_target_iff]
    · rename_i hbt
      rw [h.in_bbs b hbg, collapse_eq_iff hbt hbm]
  bag_num := by
    -- the moved bag is the one true bag that is lost
    have hset : (Finset.univ.filter fun b =>
        (g.translate order target_bag moved_bag).converted_bag b = b) =
          (Finset.univ.filter fun b => g.converted_bag b = b).erase moved_bag := by
      ext b
      simp only [Finset.mem_filter, Finset.mem_univ, true_and, Finset.mem_erase,
        translate_true_iff hne, and_comm]
    rw [hset, Finset.card_erase_of_mem (by simpa using hm), bag_num_translate, h.bag_num]
  sucs_ld b := by
    rw [translate_field (·.sucs_ld_rmp) fun _ _ _ _ _ _ _ => rfl, h.sucs_ld]
  pres b er := by
    rw [translate_field (·.pres_ld_rmp) fun _ _ _ _ _ _ _ => rfl,
      translate_field (·.pres_str_rmp) fun _ _ _ _ _ _ _ => rfl]
    exact h.pres b er

end Translate

omit [Fintype β] in
theorem converted_bag_markLoop : (g.markLoop b).converted_bag = g.converted_bag :=
  funext fun _ => modify_field (·.converted_bag) fun _ => rfl

theorem getTrueBag_markLoop : (g.markLoop b).GetTrueBag = g.GetTrueBag := by
  unfold GetTrueBag
  rw [converted_bag_markLoop]

omit [Fintype β] in
/-- One bag is marked as a loop. -/
theorem is_loop_markLoop :
    ((g.markLoop b).node x).is_loop = if x = b then true else (g.node x).is_loop := by
  rw [markLoop, modify_node]
  split <;> rfl

/-- `is_loop` has no part in the partition. -/
theorem Partition.markLoop (h : Partition f g) (b : β) : Partition f (g.markLoop b) := by
  have hfield : ∀ {γ : Type} (field : PhiRegsBBBagNode β → γ),
      (∀ n, field { n with is_loop := true } = field n) → ∀ x,
        field ((g.markLoop b).node x) = field (g.node x) :=
    fun field hf _ => modify_field field hf
  have hconv : (g.markLoop b).converted_bag = g.converted_bag := converted_bag_markLoop
  have htrue : (g.markLoop b).GetTrueBag = g.GetTrueBag := getTrueBag_markLoop
  have hclass : (g.markLoop b).ClassIn = g.ClassIn := by
    unfold ClassIn
    rw [htrue]
  constructor
  · rw [hconv]
    exact h.grounded
  · rw [htrue]
    exact h.component
  · simpa only [hfield (·.parents) fun _ => rfl, hfield (·.children) fun _ => rfl] using h.converse
  · simpa only [htrue, hfield (·.children) fun _ => rfl] using h.child_sound
  · simpa only [htrue, hfield (·.children) fun _ => rfl] using h.child_complete
  · simpa only [htrue, hfield (·.parents) fun _ => rfl] using h.parent_complete
  · simpa only [hconv, hclass, hfield (·.own_ld_rmp) fun _ => rfl] using h.own_ld
  · simpa only [hconv, hclass, hfield (·.own_str_rmp) fun _ => rfl] using h.own_str
  · simpa only [hfield (·.own_ld_rmp) fun _ => rfl] using h.own_self
  · simpa only [hconv, htrue, hfield (·.in_bbs) fun _ => rfl] using h.in_bbs
  · rw [hconv]
    exact h.bag_num
  · simpa only [hfield (·.sucs_ld_rmp) fun _ => rfl] using h.sucs_ld
  · simpa only [hfield (·.pres_ld_rmp) fun _ => rfl, hfield (·.pres_str_rmp) fun _ => rfl]
      using h.pres

/-! ### The initial bags -/

omit [Fintype β] in
/-- The edges that leave their block. -/
theorem mem_edges : (p, c) ∈ edges f order ↔ f.Edge p c ∧ p ≠ c := by
  simp only [edges, List.mem_flatMap, List.mem_map, List.mem_filter, PtrOrder.mem_iter,
    Prod.mk.injEq, BlockGraph.Edge, decide_eq_true_eq]
  constructor
  · rintro ⟨bb, -, par, hpar, rfl, rfl⟩
    exact hpar
  · intro h
    exact ⟨c, order.complete c, p, h, rfl, rfl⟩

/-- At the start every block is a class of its own. -/
theorem partition_init (f : BlockGraph β) (order : PtrOrder β) (uninit : β → Bool) :
    Partition f (.init f order uninit) := by
  have hfield : ∀ {γ : Type} (field : PhiRegsBBBagNode β → γ),
      (∀ n parents children,
        field { n with parents := parents, children := children } = field n) → ∀ b,
        field ((init f order uninit).node b) = field ((ofBlocks f uninit).node b) :=
    fun field hf _ => linkAll_field field hf _
  -- nothing is converted yet, so every bag is its own true bag
  have hconv : (init f order uninit).converted_bag = id :=
    funext (hfield (·.converted_bag) fun _ _ _ => rfl)
  have htrue : (init f order uninit).GetTrueBag = id := by
    funext b
    unfold GetTrueBag
    rw [hconv]
    exact Forest.root_of_fixed rfl
  -- the links are the edges between different blocks
  have hchildren : ∀ p c, c ∈ ((init f order uninit).node p).children ↔ f.Edge p c ∧ p ≠ c := by
    intro p c
    rw [init, mem_children_linkAll, mem_edges]
    exact or_iff_right (Finset.notMem_empty c)
  have hparents : ∀ p c, p ∈ ((init f order uninit).node c).parents ↔ f.Edge p c ∧ p ≠ c := by
    intro p c
    rw [init, mem_parents_linkAll, mem_edges]
    exact or_iff_right (Finset.notMem_empty p)
  have hbetween : ∀ a b, Between f.Edge id a b ↔ f.Edge a b ∧ a ≠ b := by
    intro a b
    constructor
    · rintro ⟨hne, u, v, rfl, rfl, hedge⟩
      exact ⟨hedge, hne⟩
    · rintro ⟨hedge, hne⟩
      exact ⟨hne, a, b, rfl, rfl, hedge⟩
  have hclass : ∀ b mp er erc,
      (init f order uninit).ClassIn b mp er erc ↔ mp b er = some erc := by
    intro b mp er erc
    simp only [ClassIn, htrue, id, exists_eq_left]
  constructor
  · -- the forest is grounded
    rw [hconv]
    exact Forest.grounded_id
  · intro b
    rw [htrue]
    exact .refl b
  · -- the links: the same both ways, sound and complete
    intro p c
    rw [hparents, hchildren]
  · intro p c hc
    rw [htrue]
    exact .inr ((hbetween p c).mpr ((hchildren p c).mp hc))
  · intro a b hab
    rw [htrue] at hab ⊢
    exact ⟨b, (hchildren a b).mpr ((hbetween a b).mp hab), rfl⟩
  · intro a b hab
    rw [htrue] at hab ⊢
    exact ⟨a, (hparents a b).mpr ((hbetween a b).mp hab), rfl⟩
  · -- the maps are those of the single blocks
    intro b _ er
    rw [hfield (·.own_ld_rmp) fun _ _ _ => rfl]
    exact (widest_self _).congr fun erc => (hclass b _ er erc).symm
  · intro b _ er
    rw [hfield (·.own_str_rmp) fun _ _ _ => rfl]
    exact (widest_self _).congr fun erc => (hclass b _ er erc).symm
  · intro b er erc hb
    rw [hfield (·.own_ld_rmp) fun _ _ _ => rfl]
    exact ⟨erc, hb, .inl rfl⟩
  · intro b _ x
    rw [hfield (·.in_bbs) fun _ _ _ => rfl, htrue]
    exact Finset.mem_singleton
  · -- the count of the true bags
    rw [init, bag_num_linkAll, ← init, hconv]
    simp [ofBlocks]
  · exact fun b => hfield (·.sucs_ld_rmp) (fun _ _ _ => rfl) b
  · exact fun b er => ⟨congrFun (hfield (·.pres_ld_rmp) (fun _ _ _ => rfl) b) er,
      congrFun (hfield (·.pres_str_rmp) (fun _ _ _ => rfl) b) er⟩

end BagGraph

/-! ### Loop-free bags -/

variable [Fintype β]

/-- The bags are the components of the function, and parents and children are the edges
between different bags. -/
structure BagDag (f : BlockGraph β) (g : BagGraph β) : Prop where
  true_eq_iff : ∀ a b, g.GetTrueBag a = g.GetTrueBag b ↔ Mutual f.Edge a b
  getTrueBag_idem : ∀ b, g.GetTrueBag (g.GetTrueBag b) = g.GetTrueBag b
  children : ∀ b, g.GetTrueBag b = b →
    ∀ c, c ∈ (g.node b).children ↔ Between f.Edge g.GetTrueBag b c
  parents : ∀ b, g.GetTrueBag b = b →
    ∀ p, p ∈ (g.node b).parents ↔ Between f.Edge g.GetTrueBag p b
  bag_num : g.bag_num = (Finset.univ.filter fun b => g.GetTrueBag b = b).card

/-- The bags that loop removal leaves. -/
structure LoopFree (f : BlockGraph β) (g : BagGraph β) : Prop extends BagDag f g where
  own_ld : ∀ b, g.GetTrueBag b = b → ∀ er,
    Widest (g.ClassIn b f.bb_ld_r_mp er) ((g.node b).own_ld_rmp er)
  own_str : ∀ b, g.GetTrueBag b = b → ∀ er,
    Widest (g.ClassIn b f.bb_str_r_mp er) ((g.node b).own_str_rmp er)
  own_self : ∀ b er erc, f.bb_ld_r_mp b er = some erc →
    ∃ erc', (g.node b).own_ld_rmp er = some erc' ∧ (erc' = erc ∨ ERCSize erc < ERCSize erc')
  in_bbs : ∀ b, g.GetTrueBag b = b → ∀ x, x ∈ (g.node b).in_bbs ↔ g.GetTrueBag x = b
  is_loop : ∀ b, g.GetTrueBag b ≠ b → (g.node (g.GetTrueBag b)).is_loop = true
  sucs_ld : ∀ b, (g.node b).sucs_ld_rmp = f.bb_ld_r_mp b
  pres : ∀ b er, (g.node b).pres_ld_rmp er = none ∧ (g.node b).pres_str_rmp er = none

end Elfconv
