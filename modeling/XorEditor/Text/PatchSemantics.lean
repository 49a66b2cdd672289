import XorEditor.Text.Rope

/-!
# What a patch says

A patch lists the ranges of an old text that were replaced, and the ranges of the new text
that replaced them.  `Patch.Turns` says that a patch describes the way from one text to
another: between the edits both texts are the same, at the positions that the edits map to
each other.  `Patch.substitute` is the new text as a subscriber would compute it.

Patches are built from left to right, so the rules here extend a patch at its end.

* `Turns`, `substitute`: the meaning of a patch
* `Turns.push`, `Turns.extendLast`: how it grows
* `Turns.substitute_eq`: a subscriber gets the new text
-/

namespace XorEditor.Text.Patch

open List

/-- The old text from `oldPos` on, with every old range replaced by the new text of its new
range. -/
def substitute (old new : Rope) : Nat → Patch → Rope
  | oldPos, [] => old.drop oldPos
  | oldPos, edit :: patch =>
    (old.take edit.oldStart).drop oldPos ++ (new.take edit.newEnd).drop edit.newStart ++
      substitute old new edit.oldEnd patch

/-- The patch turns a text that begins at `oldPos` into a text that begins at `newPos`:
in front of each edit there is a text that both have, and what follows the last edit is
the same. -/
def Turns (oldPos newPos : Nat) : Patch → Rope → Rope → Prop
  | [], old, new => old = new
  | edit :: patch, old, new =>
    ∃ same deleted inserted old' new',
      old = same ++ deleted ++ old' ∧ new = same ++ inserted ++ new' ∧
      edit.oldStart = oldPos + same.length ∧ edit.oldEnd = edit.oldStart + deleted.length ∧
      edit.newStart = newPos + same.length ∧ edit.newEnd = edit.newStart + inserted.length ∧
      Turns edit.oldEnd edit.newEnd patch old' new'

/-- The edits neither overlap nor touch, and come in increasing order. -/
def Separated (patch : Patch) : Prop :=
  patch.Pairwise fun x y => x.oldEnd < y.oldStart ∧ x.newEnd < y.newStart

variable {oldPos newPos : Nat} {patch : Patch} {old new : Rope}

theorem Turns.same_append (same : Rope)
    (h : Turns (oldPos + same.length) (newPos + same.length) patch old new) :
    Turns oldPos newPos patch (same ++ old) (same ++ new) := by
  cases patch with
  | nil =>
    have heq : old = new := h
    change same ++ old = same ++ new
    rw [heq]
  | cons edit patch =>
    obtain ⟨t, deleted, inserted, old', new', rfl, rfl, hos, hoe, hns, hne, hrest⟩ := h
    refine ⟨same ++ t, deleted, inserted, old', new', by simp, by simp, ?_, hoe, ?_, hne, hrest⟩
    · rw [hos, length_append]
      omega
    · rw [hns, length_append]
      omega

section Turns

variable (h : Turns oldPos newPos patch old new)
include h

/-- Patches of adjacent texts are joined. -/
theorem Turns.append {patch' : Patch} {old' new' : Rope}
    (h' : Turns (oldPos + old.length) (newPos + new.length) patch' old' new') :
    Turns oldPos newPos (patch ++ patch') (old ++ old') (new ++ new') := by
  induction patch generalizing oldPos newPos old new with
  | nil =>
    obtain rfl : old = new := h
    exact Turns.same_append old h'
  | cons edit patch ih =>
    obtain ⟨t, deleted, inserted, o, n, rfl, rfl, hos, hoe, hns, hne, hrest⟩ := h
    refine ⟨t, deleted, inserted, o ++ old', n ++ new', by simp, by simp, hos, hoe, hns, hne,
      ih hrest ?_⟩
    have hold : edit.oldEnd + o.length = oldPos + (t ++ deleted ++ o).length := by
      simp only [length_append]
      omega
    have hnew : edit.newEnd + n.length = newPos + (t ++ inserted ++ n).length := by
      simp only [length_append]
      omega
    rwa [hold, hnew]

/-- Text that did not change needs no edit. -/
theorem Turns.same (text : Rope) : Turns oldPos newPos patch (old ++ text) (new ++ text) := by
  have hnil : Turns (oldPos + old.length) (newPos + new.length) [] text text := rfl
  have := h.append hnil
  rwa [append_nil] at this

/-- A replaced text at the end needs one more edit. -/
theorem Turns.concat (deleted inserted : Rope) : Turns oldPos newPos
      (patch ++
        [{ oldStart := oldPos + old.length
           oldEnd := oldPos + old.length + deleted.length
           newStart := newPos + new.length
           newEnd := newPos + new.length + inserted.length }])
      (old ++ deleted) (new ++ inserted) :=
  h.append ⟨[], deleted, inserted, [], [], by simp, by simp, rfl, rfl, rfl, rfl, rfl⟩

variable {edit last : Edit}

/-- No edit goes beyond the texts. -/
theorem Turns.le_length (hedit : edit ∈ patch) :
    oldPos ≤ edit.oldStart ∧ edit.oldStart ≤ edit.oldEnd ∧ edit.oldEnd ≤ oldPos + old.length ∧
      newPos ≤ edit.newStart ∧ edit.newStart ≤ edit.newEnd ∧ edit.newEnd ≤ newPos + new.length := by
  induction patch generalizing oldPos newPos old new with
  | nil => simp at hedit
  | cons first patch ih =>
    obtain ⟨t, deleted, inserted, o, n, rfl, rfl, hos, hoe, hns, hne, hrest⟩ := h
    simp only [length_append]
    rcases mem_cons.mp hedit with rfl | hedit
    · omega
    · have := ih hrest hedit
      omega

end Turns

/-- In front of the first edit both texts are equally long. -/
theorem Turns.first_gap {first : Edit} (h : Turns oldPos newPos (first :: patch) old new) :
    first.oldStart + newPos = first.newStart + oldPos := by
  obtain ⟨t, d, i, o, n, -, -, hos, -, hns, -, -⟩ := h
  omega

section

variable (h : Turns oldPos newPos (patch ++ [last]) old new)
include h

/-- Behind the last edit is a text that both have. -/
theorem Turns.of_concat : ∃ o n d i t, old = o ++ d ++ t ∧ new = n ++ i ++ t ∧
      Turns oldPos newPos patch o n ∧ last = ⟨oldPos + o.length, oldPos + o.length + d.length,
        newPos + n.length, newPos + n.length + i.length⟩ := by
  induction patch generalizing oldPos newPos old new with
  | nil =>
    obtain ⟨s, d, i, t, n, rfl, rfl, hos, hoe, hns, hne, hrest⟩ := h
    obtain rfl : t = n := hrest
    refine ⟨s, s, d, i, t, rfl, rfl, rfl, ?_⟩
    rw [← hos, ← hoe, ← hns, ← hne]
  | cons edit patch ih =>
    obtain ⟨s, d, i, o, n, rfl, rfl, hos, hoe, hns, hne, hrest⟩ := h
    obtain ⟨o, n, d', i', t, rfl, rfl, hturns, rfl⟩ := ih hrest
    refine ⟨s ++ d ++ o, s ++ i ++ n, d', i', t, by simp, by simp,
      ⟨s, d, i, o, n, rfl, rfl, hos, hoe, hns, hne, hturns⟩, ?_⟩
    simp only [length_append, hoe, hos, hne, hns, Nat.add_assoc]

/-- If the last edit reaches the end of the old text, it can be made longer. -/
theorem Turns.extendLast (hend : last.oldEnd = oldPos + old.length) (deleted inserted : Rope) :
    last.newEnd = newPos + new.length ∧ Turns oldPos newPos
        (patch ++
          [{ last with
            oldEnd := oldPos + old.length + deleted.length
            newEnd := newPos + new.length + inserted.length }])
        (old ++ deleted) (new ++ inserted) := by
  obtain ⟨o, n, d, i, t, rfl, rfl, hturns, rfl⟩ := h.of_concat
  simp only [length_append] at hend
  obtain rfl : t = [] := eq_nil_of_length_eq_zero (by omega)
  have hconcat := hturns.concat (d ++ deleted) (i ++ inserted)
  simp only [append_nil, append_assoc, length_append, Nat.add_assoc, true_and] at hconcat ⊢
  exact hconcat

/-- Behind the last edit both texts are equally long. -/
theorem Turns.last_gap :
    last.oldEnd + (newPos + new.length) = last.newEnd + (oldPos + old.length) := by
  obtain ⟨o, n, d, i, t, rfl, rfl, -, rfl⟩ := h.of_concat
  simp only [length_append]
  omega

/-- Every edit of a separated patch ends no later than its last one. -/
theorem Separated.end_le_last (hsep : Separated (patch ++ [last]))
    (hedit : edit ∈ patch ++ [last]) : edit.oldEnd ≤ last.oldEnd ∧ edit.newEnd ≤ last.newEnd := by
  rcases mem_append.mp hedit with hmem | hmem
  · have hlt := (pairwise_append.mp hsep).2.2 edit hmem last (by simp)
    have hlast := h.le_length mem_concat_self
    omega
  · rw [mem_singleton.mp hmem]
    exact ⟨Nat.le_refl _, Nat.le_refl _⟩

end

/-- Pushing the edit for what was replaced at the end of both texts. -/
theorem Turns.push (h : Turns 0 0 patch old new) (hsep : Separated patch)
    (deleted inserted : Rope) {edit : Edit}
    (hedit : edit = ⟨old.length, old.length + deleted.length, new.length,
      new.length + inserted.length⟩) :
    Turns 0 0 (patch.push edit) (old ++ deleted) (new ++ inserted) ∧
      Separated (patch.push edit) := by
  subst hedit
  have hconcat := h.concat deleted inserted
  simp only [Nat.zero_add] at hconcat
  rw [Patch.push, Edit.isEmpty]
  split_ifs with hempty
  · simp only [Bool.and_eq_true, beq_iff_eq, Nat.left_eq_add, length_eq_zero_iff] at hempty
    rw [hempty.1, hempty.2, append_nil, append_nil]
    exact ⟨h, hsep⟩
  · rw [pushMaybeEmpty]
    rcases eq_nil_or_concat patch with rfl | ⟨init, last, rfl⟩
    · exact ⟨hconcat, pairwise_singleton _ _⟩
    · rw [concat_eq_append] at h hsep hconcat ⊢
      simp only [getLast?_append, getLast?_singleton, Option.some_or, dropLast_concat]
      have hlast := h.le_length mem_concat_self
      split_ifs with htouch
      · have hextended := h.extendLast (by omega) deleted inserted
        simp only [Nat.zero_add] at hextended
        refine ⟨hextended.2, ?_⟩
        have hinit := pairwise_append.mp hsep
        refine pairwise_append.mpr ⟨hinit.1, pairwise_singleton _ _, ?_⟩
        intro edit hedit other hother
        rw [mem_singleton.mp hother]
        exact hinit.2.2 edit hedit last (mem_singleton_self last)
      · refine ⟨hconcat, pairwise_append.mpr ⟨hsep, pairwise_singleton _ _, ?_⟩⟩
        intro edit hedit other hother
        rw [mem_singleton.mp hother]
        have hgap := h.last_gap
        have hend := hsep.end_le_last h hedit
        change edit.oldEnd < old.length ∧ edit.newEnd < new.length
        omega

/-- `Patch::invert`. -/
def invert (patch : Patch) : Patch :=
  patch.map fun edit => ⟨edit.newStart, edit.newEnd, edit.oldStart, edit.oldEnd⟩

theorem Turns.invert (h : Turns oldPos newPos patch old new) :
    Turns newPos oldPos patch.invert new old := by
  induction patch generalizing oldPos newPos old new with
  | nil =>
    obtain rfl : old = new := h
    rfl
  | cons edit patch ih =>
    obtain ⟨t, d, i, o, n, rfl, rfl, hos, hoe, hns, hne, hrest⟩ := h
    exact ⟨t, i, d, n, o, rfl, rfl, hns, hne, hos, hoe, ih hrest⟩

theorem invert_invert (patch : Patch) : patch.invert.invert = patch := by
  rw [Patch.invert, Patch.invert, map_map]
  exact map_id patch

/-- Text in front of the first edit is in both texts. -/
theorem Turns.drop_same {text : Rope} (h : Turns oldPos newPos patch (text ++ old) new)
    (hfirst : ∀ edit ∈ patch.head?, oldPos + text.length ≤ edit.oldStart) :
    ∃ new', new = text ++ new' ∧
      Turns (oldPos + text.length) (newPos + text.length) patch old new' := by
  cases patch with
  | nil =>
    obtain rfl : text ++ old = new := h
    exact ⟨old, rfl, rfl⟩
  | cons edit patch =>
    obtain ⟨t, d, i, o, n, hold, rfl, hos, hoe, hns, hne, hrest⟩ := h
    have hstart := hfirst edit rfl
    rw [append_assoc] at hold
    obtain ⟨t', rfl⟩ := prefix_of_prefix_length_le ⟨old, rfl⟩ ⟨d ++ o, hold.symm⟩ (by omega)
    rw [append_assoc, append_cancel_left_eq] at hold
    rw [length_append] at hos hns
    refine ⟨t' ++ i ++ n, by simp, t', d, i, o, n, by rw [hold, append_assoc], rfl,
      by omega, hoe, by omega, hne, hrest⟩

/-- The same on the side of the new text. -/
theorem Turns.drop_same_new {text : Rope} (h : Turns oldPos newPos patch old (text ++ new))
    (hfirst : ∀ edit ∈ patch.head?, newPos + text.length ≤ edit.newStart) :
    ∃ old', old = text ++ old' ∧
      Turns (oldPos + text.length) (newPos + text.length) patch old' new := by
  obtain ⟨old', rfl, hturns⟩ := h.invert.drop_same (by
    intro edit hedit
    cases patch with
    | nil => cases hedit
    | cons first rest =>
      cases hedit
      exact hfirst first rfl)
  have hback := hturns.invert
  rw [invert_invert] at hback
  exact ⟨old', rfl, hback⟩

/-- A text cut in two, with something behind it. -/
theorem take_append_drop_append (n : Nat) (text rest : Rope) :
    text.take n ++ (text.drop n ++ rest) = text ++ rest := by
  rw [← append_assoc, take_append_drop]

/-- An edit cut in two, in front of the byte `cut` of what it inserted. -/
theorem Turns.split {cut : Nat} (h : Turns oldPos newPos (edit :: patch) old new)
    (hstart : edit.newStart ≤ cut) (hend : cut ≤ edit.newEnd) : Turns oldPos newPos
      ({ edit with
          oldEnd := min (edit.oldStart + (cut - edit.newStart)) edit.oldEnd
          newEnd := cut } ::
        { edit with
          oldStart := min (edit.oldStart + (cut - edit.newStart)) edit.oldEnd
          newStart := cut } :: patch) old new := by
  obtain ⟨t, d, i, o, n, rfl, rfl, hos, hoe, hns, hne, hrest⟩ := h
  obtain ⟨k, rfl⟩ := Nat.exists_eq_add_of_le hstart
  rw [Nat.add_sub_cancel_left]
  refine ⟨t, d.take k, i.take k, d.drop k ++ o, i.drop k ++ n, by simp [take_append_drop_append],
    by simp [take_append_drop_append], hos, ?_, hns, ?_, [], d.drop k, i.drop k, o, n, rfl, rfl,
      rfl, ?_, rfl, ?_, hrest⟩
  all_goals
    simp only [length_take, length_drop]
    omega

/-- The same in front of the byte `cut` of what the edit deleted. -/
theorem Turns.split_old {cut : Nat} (h : Turns oldPos newPos (edit :: patch) old new)
    (hstart : edit.oldStart ≤ cut) (hend : cut ≤ edit.oldEnd) : Turns oldPos newPos
      ({ edit with
          oldEnd := cut
          newEnd := min (edit.newStart + (cut - edit.oldStart)) edit.newEnd } ::
        { edit with
          oldStart := cut
          newStart := min (edit.newStart + (cut - edit.oldStart)) edit.newEnd } :: patch)
      old new := by
  have hback : Turns oldPos newPos (_ :: _ :: patch.invert.invert) old new :=
    (h.invert.split hstart hend).invert
  rw [invert_invert] at hback
  exact hback

/-- A patch computes the new text. -/
theorem Turns.substitute_eq {front front' : Rope}
    (h : Turns front.length front'.length patch old new) :
    substitute (front ++ old) (front' ++ new) front.length patch = new := by
  induction patch generalizing front front' old new with
  | nil =>
    obtain rfl : old = new := h
    simp [substitute]
  | cons edit patch ih =>
    obtain ⟨t, d, i, o, n, rfl, rfl, hos, hoe, hns, hne, hrest⟩ := h
    have hfront : (front ++ t ++ d).length = edit.oldEnd := by
      simp only [length_append]
      omega
    have hfront' : (front' ++ t ++ i).length = edit.newEnd := by
      simp only [length_append]
      omega
    rw [← hfront, ← hfront'] at hrest
    have hih := ih hrest
    have hsame : ((front ++ (t ++ d ++ o)).take edit.oldStart).drop front.length = t := by
      have hstart : edit.oldStart = (front ++ t).length := by
        rw [hos, length_append]
      rw [hstart, ← append_assoc, ← append_assoc, append_assoc (front ++ t), take_left, drop_left]
    have hinserted : ((front' ++ (t ++ i ++ n)).take edit.newEnd).drop edit.newStart = i := by
      have hstart : edit.newStart = (front' ++ t).length := by
        rw [hns, length_append]
      rw [← hfront', hstart, ← append_assoc, ← append_assoc, take_left, drop_left]
    rw [substitute, hsame, hinserted, ← hfront]
    simp only [append_assoc] at hih ⊢
    rw [hih]

end XorEditor.Text.Patch
