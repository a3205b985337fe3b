import DataRace.Proofs.Program.Arranged

/-!
# DataRace.Proofs.Program.Linking

What linking fills in.

Predecessors and users are noted one at a time, at the end of the lists there
are.  Linking starts with lists that are empty (`Program.Unlinked`), goes
through blocks and instructions in order, and so leaves them ascending.

* `Table.getD_foldl_modify` — entries of a table that are changed one after the other;
* `preds_link`, `users_link` — the predecessors of a block are the blocks that lead to it, the
  users of a value the instructions that read it.
-/

namespace DataRace

namespace Table

variable {α : Type}

/-- Entries are changed once each, or in a way that does not depend on how often. -/
theorem getD_foldl_modify {f : α → α} {js : List Nat} (h : js.Nodup ∨ ∀ x, f (f x) = f x)
    (xs : Array α) (d : α) (i : Nat) :
    (js.foldl (fun xs j => xs.modify j f) xs).getD i d =
      if i ∈ js ∧ i < xs.size then f (xs.getD i d) else xs.getD i d := by
  induction js generalizing xs with
  | nil => simp
  | cons j js ih =>
    have htail : js.Nodup ∨ ∀ x, f (f x) = f x := h.imp_left fun h => (List.nodup_cons.1 h).2
    rw [List.foldl_cons, ih htail, getD_modify, Array.size_modify]
    by_cases hi : i < xs.size
    · by_cases hij : j = i
      · subst hij
        rcases h with h | h
        · simp [hi, (List.nodup_cons.1 h).1]
        · simp [hi, h]
      · simp [hi, hij, Ne.symm hij]
    · have hout : ¬(j = i ∧ j < xs.size) := fun ⟨hji, hj⟩ => hi (hji ▸ hj)
      simp [hi, hout]

theorem size_foldl_modify (f : Nat → α → α) (js : List Nat) (xs : Array α) :
    (js.foldl (fun xs j => xs.modify j (f j)) xs).size = xs.size := by
  induction js generalizing xs with
  | nil => rfl
  | cons j js ih => rw [List.foldl_cons, ih, Array.size_modify]

end Table

theorem Operation.nodup_successors (op : Operation) : op.successors.Nodup := by
  cases op with
  | branch c t e => by_cases h : t = e <;> simp [successors, h]
  | _ => simp [successors]

/-! ## tables that are not linked -/

/-- No predecessors and no users are noted. -/
structure Program.Unlinked (p : Program) : Prop where
  preds : ∀ b, (p.block b).preds = []
  users : ∀ value ∈ p.values, value.users = []

namespace Program.Unlinked

variable {p : Program}

theorem users_eq_nil (h : p.Unlinked) (v : ValueId) : p.users v = [] := by
  by_cases hv : v < p.values.size
  · rw [Program.users, value, Array.getD, dif_pos hv]
    exact h.users _ (Array.getElem_mem hv)
  · rw [Program.users, value, Table.getD_of_size_le (Nat.le_of_not_lt hv)]
    rfl

theorem empty : Program.empty.Unlinked where
  preds b := by
    rw [block_of_size_le (Nat.zero_le b)]
    rfl
  users value h := absurd h (Array.not_mem_empty value)

theorem pushValue (h : p.Unlinked) (d : Definition) :
    Unlinked { p with values := p.values.push ⟨d, []⟩ } where
  preds := h.preds
  users value hv := by
    rcases Array.mem_push.1 hv with hv | rfl
    · exact h.users value hv
    · rfl

theorem declared (h : p.Unlinked) (name : String) (n : Nat) : (p.declared name n).Unlinked where
  preds := h.preds
  users value hv := by
    rcases Array.mem_append.1 hv with hv | hv
    · exact (h.pushValue (.function p.funcs.size)).users value hv
    · obtain ⟨k, -, rfl⟩ := Array.mem_map.1 hv
      rfl

theorem withBlock (h : p.Unlinked) (f : FuncId) : (p.withBlock f).Unlinked where
  preds b := by
    rw [block_withBlock]
    split
    · rfl
    · exact h.preds b
  users := h.users

theorem appended (h : p.Unlinked) (c : Cursor) (op : Operation) : (p.appended c op).Unlinked where
  preds b := by
    rw [block_appended]
    split
    · exact h.preds b
    · exact h.preds b
  users value hv := by
    rw [Program.appended] at hv
    split at hv
    · exact (h.pushValue (.inst p.insts.size)).users value hv
    · exact h.users value hv

end Program.Unlinked

namespace Builder

variable {p : Program} {blocks : Array Block} {values : Array Value}

theorem nodup_successorsOf (b : BlockId) : (successorsOf p b).Nodup := by
  unfold successorsOf
  split
  · exact Operation.nodup_successors _
  · exact List.nodup_nil

/-! ## predecessors -/

theorem size_addPreds (b : BlockId) : (addPreds blocks b).size = blocks.size :=
  Table.size_foldl_modify (fun _ => addPred b) _ _

theorem getD_addPreds {a b : Nat} (hnodup : (blocks.getD a default).succs.Nodup)
    (hb : b < blocks.size) : (addPreds blocks a).getD b default =
      { blocks.getD b default with
        preds := (blocks.getD b default).preds ++
          if b ∈ (blocks.getD a default).succs then [a] else [] } := by
  rw [addPreds, Table.getD_foldl_modify (.inl hnodup)]
  split
  · next h => rw [if_pos h.1, addPred]
  · next h => rw [if_neg fun hmem => h ⟨hmem, hb⟩, List.append_nil]

theorem succs_addPreds {a : Nat} (hnodup : (blocks.getD a default).succs.Nodup) (b : Nat) :
    ((addPreds blocks a).getD b default).succs = (blocks.getD b default).succs := by
  by_cases hb : b < blocks.size
  · rw [getD_addPreds hnodup hb]
  · have hsize : (addPreds blocks a).size = blocks.size := size_addPreds a
    rw [Table.getD_of_size_le (by omega), Table.getD_of_size_le (by omega)]

theorem size_foldl_addPreds (as : List BlockId) :
    (as.foldl addPreds blocks).size = blocks.size := by
  induction as generalizing blocks with
  | nil => rfl
  | cons a as ih => rw [List.foldl_cons, ih, size_addPreds]

/-- Blocks are noted in the order in which they are gone through. -/
theorem getD_foldl_addPreds (hnodup : ∀ a : Nat, (blocks.getD a default).succs.Nodup) {b : Nat}
    (hb : b < blocks.size) (as : List BlockId) : (as.foldl addPreds blocks).getD b default =
      { blocks.getD b default with
        preds := (blocks.getD b default).preds ++
          as.filter fun a => (blocks.getD a default).succs.contains b } := by
  induction as generalizing blocks with
  | nil => simp
  | cons a as ih =>
    have hsuccs := succs_addPreds (hnodup a)
    rw [List.foldl_cons, ih (fun c => by rw [hsuccs]; exact hnodup c)
      (by rw [size_addPreds]; exact hb), getD_addPreds (hnodup a) hb]
    simp only [hsuccs, List.append_assoc, List.filter_cons, List.contains_iff_mem]
    split
    · rfl
    · rw [List.nil_append]

theorem getD_withSuccs {b : Nat} (hb : b < p.blocks.size) :
    (withSuccs p).getD b default = { p.block b with succs := successorsOf p b } :=
  Table.getD_mapIdx hb

theorem size_withSuccs : (withSuccs p).size = p.blocks.size := Array.size_mapIdx

theorem succs_withSuccs (b : Nat) : ((withSuccs p).getD b default).succs = successorsOf p b := by
  by_cases hb : b < p.blocks.size
  · rw [getD_withSuccs hb]
  · rw [Table.getD_of_size_le (by rw [size_withSuccs]; exact Nat.le_of_not_lt hb), successorsOf,
      Program.block_of_size_le (Nat.le_of_not_lt hb)]
    rfl

theorem size_link_blocks : (link p).blocks.size = p.blocks.size := by
  rw [link, size_foldl_addPreds, size_withSuccs]

theorem link_block {b : Nat} (hb : b < p.blocks.size) : (link p).block b =
    { p.block b with
      succs := successorsOf p b
      preds := (p.block b).preds ++
        (List.range p.blocks.size).filter fun a => (successorsOf p a).contains b } := by
  rw [Program.block, link, getD_foldl_addPreds (fun a => succs_withSuccs a ▸ nodup_successorsOf a)
    (by rw [size_withSuccs]; exact hb), getD_withSuccs hb]
  simp only [succs_withSuccs]

theorem link_block_of_size_le {b : Nat} (h : p.blocks.size ≤ b) :
    (link p).block b = p.block b := by
  rw [Program.block_of_size_le h, Program.block_of_size_le (by rw [size_link_blocks]; exact h)]

theorem link_block_insts (b : Nat) : ((link p).block b).insts = (p.block b).insts := by
  by_cases hb : b < p.blocks.size
  · rw [link_block hb]
  · rw [link_block_of_size_le (Nat.le_of_not_lt hb)]

theorem link_block_func (b : Nat) : ((link p).block b).func = (p.block b).func := by
  by_cases hb : b < p.blocks.size
  · rw [link_block hb]
  · rw [link_block_of_size_le (Nat.le_of_not_lt hb)]

theorem link_block_succs (b : Nat) : ((link p).block b).succs = successorsOf p b := by
  by_cases hb : b < p.blocks.size
  · rw [link_block hb]
  · rw [link_block_of_size_le (Nat.le_of_not_lt hb), successorsOf,
      Program.block_of_size_le (Nat.le_of_not_lt hb)]
    rfl

/-- The predecessors of a block are the blocks that lead to it, ascending. -/
theorem preds_link (hp : p.Unlinked) {b : Nat} (hb : b < p.blocks.size) :
    ((link p).block b).preds =
      (List.range p.blocks.size).filter fun a => (successorsOf p a).contains b := by
  rw [link_block hb, hp.preds, List.nil_append]

/-! ## users -/

/-- An instruction is noted once. -/
theorem addUser_addUser (i : InstId) (value : Value) :
    addUser i (addUser i value) = addUser i value := by
  by_cases hlast : value.users.getLast? = some i
  · simp [addUser, hlast]
  · simp [addUser, hlast]

theorem definition_addUser (i : InstId) (value : Value) :
    (addUser i value).definition = value.definition := by
  unfold addUser
  split <;> rfl

theorem getD_addUses {i v : Nat} : (addUses p values i).getD v default =
    if v ∈ (p.op i).operands ∧ v < values.size then addUser i (values.getD v default)
    else values.getD v default := by
  rw [addUses, Table.getD_foldl_modify (.inr (addUser_addUser i))]

theorem size_addUses (i : InstId) : (addUses p values i).size = values.size :=
  Table.size_foldl_modify (fun _ => addUser i) _ _

theorem size_foldl_addUses (is : List InstId) :
    (is.foldl (addUses p) values).size = values.size := by
  induction is generalizing values with
  | nil => rfl
  | cons i is ih => rw [List.foldl_cons, ih, size_addUses]

theorem definition_foldl_addUses (is : List InstId) (v : Nat) :
    ((is.foldl (addUses p) values).getD v default).definition =
      (values.getD v default).definition := by
  induction is generalizing values with
  | nil => rfl
  | cons i is ih =>
    rw [List.foldl_cons, ih, getD_addUses]
    split
    · exact definition_addUser i _
    · rfl

/-- Instructions are noted in the order in which they are gone through. -/
theorem users_foldl_addUses {is : List InstId} (his : is.Pairwise (· < ·)) {v : Nat}
    (hv : v < values.size) (hold : ∀ j ∈ (values.getD v default).users, ∀ i ∈ is, j < i) :
    ((is.foldl (addUses p) values).getD v default).users =
      (values.getD v default).users ++ is.filter fun i => (p.op i).operands.contains v := by
  induction is generalizing values with
  | nil => simp
  | cons i is ih =>
    obtain ⟨hi, his⟩ := List.pairwise_cons.1 his
    have hsize : v < (addUses p values i).size := by rwa [size_addUses]
    have hstep : ((addUses p values i).getD v default).users = (values.getD v default).users ++
        if v ∈ (p.op i).operands then [i] else [] := by
      have hlast : (values.getD v default).users.getLast? ≠ some i := fun hlast =>
        Nat.lt_irrefl i (hold i (List.mem_of_getLast? hlast) i List.mem_cons_self)
      rw [getD_addUses]
      by_cases hmem : v ∈ (p.op i).operands
      · rw [if_pos ⟨hmem, hv⟩, addUser, if_neg hlast, if_pos hmem]
      · rw [if_neg fun h => hmem h.1, if_neg hmem, List.append_nil]
    rw [List.foldl_cons, ih his hsize fun j hj k hk => ?_, hstep, List.filter_cons]
    · by_cases hmem : v ∈ (p.op i).operands
      · simp [hmem]
      · simp [hmem]
    · rw [hstep, List.mem_append] at hj
      rcases hj with hj | hj
      · exact hold j hj k (List.mem_cons_of_mem i hk)
      · rw [List.mem_ite_nil_right, List.mem_singleton] at hj
        exact hj.2 ▸ hi k hk

theorem size_link_values : (link p).values.size = p.values.size := size_foldl_addUses _

theorem link_value_definition (v : Nat) :
    ((link p).value v).definition = (p.value v).definition := definition_foldl_addUses _ v

/-- The users of a value are the instructions that read it, ascending. -/
theorem users_link (hp : p.Unlinked) {v : Nat} (hv : v < p.values.size) :
    (link p).users v = p.instIds.filter fun i => (p.op i).operands.contains v := by
  have hnone : (p.values.getD v default).users = [] := hp.users_eq_nil v
  have hasc : p.instIds.Pairwise (· < ·) := List.pairwise_lt_range
  have h := users_foldl_addUses (p := p) hasc hv (by rw [hnone]; simp)
  rw [hnone, List.nil_append] at h
  exact h

theorem users_link_of_size_le {v : Nat} (h : p.values.size ≤ v) : (link p).users v = [] := by
  rw [Program.users, Program.value, Table.getD_of_size_le (by rw [size_link_values]; exact h)]
  rfl

end Builder

end DataRace
