import Reparse.Pattern.Bytecode

namespace Reparse

/-!
# Instructions as trees

A program is a flat list, but it is written as a tree.  A tree is flattened by
putting the brackets of unions and sequences around their parts.

Linking reads the tree off the flat list again.  Where a tree stands in a longer
list, linking comes to the index past it, and has entered in the table the index
past each instruction that starts in between.  What the table has for other
indices is left as it was, and so nothing that was entered is lost later.

Every program that the builders make, in whatever way they are nested, is the
flattening of a tree.
-/

namespace Pattern

/-- An instruction with all that belongs to it. -/
inductive Instruction where
  | char (expected : Char)
  | range (first last : Char)
  | star (body : Instruction)
  | union (parts : List Instruction)
  | concat (parts : List Instruction)

namespace Instruction

mutual

/-- The flattening of a tree. -/
def ops : Instruction → List Op
  | .char expected => [.char expected]
  | .range first last => [.range first last]
  | .star body => .star :: body.ops
  | .union parts => .unionStart :: (opsAll parts ++ [.unionEnd])
  | .concat parts => .concatStart :: (opsAll parts ++ [.concatEnd])

def opsAll : List Instruction → List Op
  | [] => []
  | part :: parts => part.ops ++ opsAll parts

end

/-- How many instructions there are in a tree, with the brackets. -/
def size (tree : Instruction) : Nat := tree.ops.length

mutual

/-- The instructions of a tree that begins at an index, each with the index at which it starts. -/
def starts : Instruction → Nat → List (Nat × Instruction)
  | .char expected, here => [(here, .char expected)]
  | .range first last, here => [(here, .range first last)]
  | .star body, here => (here, .star body) :: body.starts (here + 1)
  | .union parts, here => (here, .union parts) :: startsAll parts (here + 1)
  | .concat parts, here => (here, .concat parts) :: startsAll parts (here + 1)

def startsAll : List Instruction → Nat → List (Nat × Instruction)
  | [], _ => []
  | part :: parts, here => part.starts here ++ startsAll parts (here + part.size)

end

/-- The program of a tree. -/
def code (tree : Instruction) : Bytecode := .ofOps tree.ops

/-! ## Trees of the builders -/

/-- The characters of a text. -/
def literal (text : List Char) : Instruction :=
  match text with
  | [single] => .char single
  | _ => .concat (text.map .char)

/-- The part or nothing. -/
def optional (part : Instruction) : Instruction := .union [part, .concat []]

/-- Exactly `count` repetitions. -/
def times (count : Nat) (part : Instruction) : Instruction := .concat (List.replicate count part)

/-- At least `count` repetitions. -/
def atLeast (count : Nat) (part : Instruction) : Instruction :=
  .concat (List.replicate count part ++ [.star part])

/-- Between `least` and `most` repetitions, both included. -/
def between (least most : Nat) (part : Instruction) : Instruction :=
  .concat (List.replicate least part ++ List.replicate (most - least) part.optional)

/-! ## Sizes -/

@[simp] theorem size_star (body : Instruction) : (star body).size = body.size + 1 := rfl

@[simp] theorem size_union (parts : List Instruction) :
    (union parts).size = (opsAll parts).length + 2 := by
  rw [size, ops, List.length_cons, List.length_append]
  rfl

@[simp] theorem size_concat (parts : List Instruction) :
    (concat parts).size = (opsAll parts).length + 2 := by
  rw [size, ops, List.length_cons, List.length_append]
  rfl

theorem size_pos (tree : Instruction) : 0 < tree.size := by
  cases tree <;> exact Nat.succ_pos _

theorem opsAll_eq (parts : List Instruction) : opsAll parts = parts.flatMap ops := by
  induction parts with
  | nil => rfl
  | cons part parts inductionHypothesis => rw [opsAll, inductionHypothesis, List.flatMap_cons]

/-- A tree starts where it begins. -/
theorem mem_starts_self (tree : Instruction) (here : Nat) : (here, tree) ∈ tree.starts here := by
  cases tree <;> exact List.mem_cons_self

mutual

/-- The instructions of a tree start and end within it. -/
theorem within_of_mem_starts : ∀ (tree : Instruction) {here index : Nat} {part : Instruction},
    (index, part) ∈ tree.starts here → here ≤ index ∧ index + part.size ≤ here + tree.size
  | .char _, _, _, _, started => by
      cases List.mem_singleton.mp started
      exact ⟨Nat.le_refl _, Nat.le_refl _⟩
  | .range _ _, _, _, _, started => by
      cases List.mem_singleton.mp started
      exact ⟨Nat.le_refl _, Nat.le_refl _⟩
  | .star body, _, _, _, started => by
      rcases List.mem_cons.mp started with whole | inside
      · cases whole
        exact ⟨Nat.le_refl _, Nat.le_refl _⟩
      · have within := within_of_mem_starts body inside
        rw [size_star]
        omega
  | .union parts, _, _, _, started => by
      rcases List.mem_cons.mp started with whole | inside
      · cases whole
        exact ⟨Nat.le_refl _, Nat.le_refl _⟩
      · have within := within_of_mem_startsAll parts inside
        rw [size_union]
        omega
  | .concat parts, _, _, _, started => by
      rcases List.mem_cons.mp started with whole | inside
      · cases whole
        exact ⟨Nat.le_refl _, Nat.le_refl _⟩
      · have within := within_of_mem_startsAll parts inside
        rw [size_concat]
        omega

theorem within_of_mem_startsAll : ∀ (parts : List Instruction) {here index : Nat}
    {part : Instruction}, (index, part) ∈ startsAll parts here →
      here ≤ index ∧ index + part.size ≤ here + (opsAll parts).length
  | [], _, _, _, started => absurd started List.not_mem_nil
  | first :: parts, _, _, _, started => by
      rw [opsAll, List.length_append, ← size]
      rcases List.mem_append.mp started with inside | later
      · have within := within_of_mem_starts first inside
        omega
      · have within := within_of_mem_startsAll parts later
        omega

end

@[simp] theorem size_code (tree : Instruction) : tree.code.size = tree.size := List.size_toArray

@[simp] theorem toList_ops_code (tree : Instruction) : tree.code.ops.toList = tree.ops := rfl

end Instruction

/-! ## Trees in flat lists -/

/-- Instructions stand in a flat list from an index on. -/
def Embeds (ops : Array Op) (part : List Op) (here : Nat) : Prop := part <+: ops.toList.drop here

namespace Embeds

variable {ops : Array Op} {op : Op} {part part' : List Op} {here : Nat}

theorem found (embeds : Embeds ops (op :: part) here) : ops[here]? = some op := by
  rcases embeds with ⟨rest, same⟩
  have found := congrArg List.head? same
  rw [List.head?_drop, Array.getElem?_toList] at found
  exact found.symm

theorem tail (embeds : Embeds ops (op :: part) here) : Embeds ops part (here + 1) := by
  rcases embeds with ⟨rest, same⟩
  refine ⟨rest, ?_⟩
  rw [← List.drop_drop, ← same]
  rfl

theorem left (embeds : Embeds ops (part ++ part') here) : Embeds ops part here :=
  (List.prefix_append _ _).trans embeds

theorem right (embeds : Embeds ops (part ++ part') here) :
    Embeds ops part' (here + part.length) := by
  rcases embeds with ⟨rest, same⟩
  refine ⟨rest, ?_⟩
  rw [← List.drop_drop, ← same, List.append_assoc, List.drop_left]

end Embeds

/-! ## Linking -/

/-- A table that was linked from an index up to another: each instruction that starts in between
has the index past it, and the table is as before elsewhere. -/
structure Links (before after : Array Nat) (starts : List (Nat × Instruction)) (first last : Nat) :
    Prop where
  size : after.size = before.size
  entered : ∀ index part, (index, part) ∈ starts → index < before.size →
    after[index]? = some (index + part.size)
  kept : ∀ index, index < first ∨ last ≤ index → after[index]? = before[index]?

namespace Links

variable {before between after : Array Nat} {starts later : List (Nat × Instruction)}
  {here middle last : Nat}

theorem none (table : Array Nat) (here : Nat) : Links table table [] here here :=
  ⟨rfl, fun _ _ started => absurd started List.not_mem_nil, fun _ _ => rfl⟩

/-- An instruction is entered after all that is inside of it. -/
theorem enter (links : Links before after starts (here + 1) last) (whole : Instruction)
    (ahead : here < last) (inside : ∀ index part, (index, part) ∈ starts → here < index) :
    Links before (after.setIfInBounds here (here + whole.size)) ((here, whole) :: starts) here
      last := by
  refine ⟨(Array.size_setIfInBounds ..).trans links.size, fun index part started within => ?_,
    fun index outside => ?_⟩
  · rcases List.mem_cons.mp started with same | deeper
    · cases same
      rw [Array.getElem?_setIfInBounds_self, if_pos (links.size.symm ▸ within)]
    · rw [Array.getElem?_setIfInBounds_ne (Nat.ne_of_lt (inside index part deeper))]
      exact links.entered index part deeper within
  · have apart : here ≠ index := by omega
    rw [Array.getElem?_setIfInBounds_ne apart]
    exact links.kept index (by omega)

/-- What was entered first is left alone by what follows. -/
theorem append (links : Links before between starts here middle)
    (links' : Links between after later middle last) (ahead : here ≤ middle) (onward : middle ≤ last)
    (inside : ∀ index part, (index, part) ∈ starts → index < middle) :
    Links before after (starts ++ later) here last := by
  refine ⟨links'.size.trans links.size, fun index part started within => ?_, fun index outside => ?_⟩
  · rcases List.mem_append.mp started with former | latter
    · rw [links'.kept index (Or.inl (inside index part former))]
      exact links.entered index part former within
    · exact links'.entered index part latter (links.size.symm ▸ within)
  · rw [links'.kept index (by omega), links.kept index (by omega)]

end Links

namespace Instruction

variable {ops : Array Op}

/-- Linking at an index comes to another one, and enters the instructions in between. -/
def LinksTo (outcome : Nat × Array Nat) (table : Array Nat) (starts : List (Nat × Instruction))
    (here last : Nat) : Prop :=
  outcome.1 = last ∧ Links table outcome.2 starts here last

/-- No tree begins with a closing bracket. -/
theorem found_of_embeds {tree : Instruction} {here : Nat} (embeds : Embeds ops tree.ops here) :
    ∃ op, ops[here]? = some op ∧ op.isClosing = false := by
  cases tree <;> exact ⟨_, embeds.found, rfl⟩

/-- Brackets are entered after the parts between them. -/
theorem LinksTo.enclose {outcome : Nat × Array Nat} {table : Array Nat}
    {starts : List (Nat × Instruction)} {here length : Nat} {closing : Op} (whole : Instruction)
    (linked : LinksTo outcome table starts (here + 1) (here + 1 + length))
    (closed : ops[here + 1 + length]? = some closing) (size : whole.size = length + 2)
    (inside : ∀ index part, (index, part) ∈ starts → here + 1 ≤ index) :
    LinksTo (min (outcome.1 + 1) ops.size,
      outcome.2.setIfInBounds here (min (outcome.1 + 1) ops.size)) table ((here, whole) :: starts)
      here (here + whole.size) := by
  rcases linked with ⟨stop, links⟩
  have within := (Array.getElem?_eq_some_iff.mp closed).1
  have past : min (outcome.1 + 1) ops.size = here + whole.size := by
    rw [stop, size]
    omega
  have widened : Links table outcome.2 starts (here + 1) (here + whole.size) :=
    ⟨links.size, links.entered, fun index outside => links.kept index (by omega)⟩
  rw [past]
  exact ⟨rfl, widened.enter whole (by omega) inside⟩

mutual

/-- Where a tree stands, linking comes to the index past it. -/
theorem link_ops : ∀ (tree : Instruction) {here fuel : Nat} (table : Array Nat),
    Embeds ops tree.ops here → 2 * tree.size ≤ fuel →
      LinksTo (Bytecode.link ops fuel here table) table (tree.starts here) here (here + tree.size)
  | tree, _, 0, _, _, enough => by
      have pos := tree.size_pos
      omega
  | .char expected, here, fuel + 1, table, embeds, _ => by
      rw [Bytecode.link, embeds.found]
      exact ⟨rfl, (Links.none table (here + 1)).enter (.char expected) (Nat.lt_succ_self here)
        fun _ _ started => absurd started List.not_mem_nil⟩
  | .range first last, here, fuel + 1, table, embeds, _ => by
      rw [Bytecode.link, embeds.found]
      exact ⟨rfl, (Links.none table (here + 1)).enter (.range first last) (Nat.lt_succ_self here)
        fun _ _ started => absurd started List.not_mem_nil⟩
  | .star body, here, fuel + 1, table, embeds, enough => by
      rw [size_star] at enough ⊢
      have linked := link_ops body table embeds.tail (by omega : 2 * body.size ≤ fuel)
      rw [Bytecode.link, embeds.found]
      generalize Bytecode.link ops fuel (here + 1) table = outcome at linked ⊢
      rcases outcome with ⟨stop, between⟩
      rcases linked with ⟨rfl, links⟩
      have past : here + 1 + body.size = here + body.star.size := Nat.add_right_comm here 1 _
      rw [past] at links ⊢
      exact ⟨rfl, links.enter body.star (by rw [size_star]; omega)
        fun _ _ started => (within_of_mem_starts body started).1⟩
  | .union parts, here, fuel + 1, table, embeds, enough => by
      rw [size_union] at enough
      have linked := linkParts_opsAll parts table rfl embeds.tail
        (by omega : 2 * (opsAll parts).length + 1 ≤ fuel)
      rw [Bytecode.link, embeds.found]
      exact linked.enclose (.union parts) embeds.tail.right.found (size_union parts)
        fun _ _ started => (within_of_mem_startsAll parts started).1
  | .concat parts, here, fuel + 1, table, embeds, enough => by
      rw [size_concat] at enough
      have linked := linkParts_opsAll parts table rfl embeds.tail
        (by omega : 2 * (opsAll parts).length + 1 ≤ fuel)
      rw [Bytecode.link, embeds.found]
      exact linked.enclose (.concat parts) embeds.tail.right.found (size_concat parts)
        fun _ _ started => (within_of_mem_startsAll parts started).1

theorem linkParts_opsAll : ∀ (parts : List Instruction) {closing : Op} {here fuel : Nat}
    (table : Array Nat), closing.isClosing = true → Embeds ops (opsAll parts ++ [closing]) here →
      2 * (opsAll parts).length + 1 ≤ fuel →
        LinksTo (Bytecode.linkParts ops fuel here table) table (startsAll parts here) here
          (here + (opsAll parts).length)
  | [], closing, here, fuel + 1, table, closes, embeds, _ => by
      rw [Bytecode.linkParts, embeds.found]
      simp only [closes, if_true]
      exact ⟨rfl, Links.none table here⟩
  | part :: parts, closing, here, fuel + 1, table, closes, embeds, enough => by
      rw [opsAll, List.append_assoc] at embeds
      rw [opsAll, List.length_append, ← size] at enough ⊢
      have pos := part.size_pos
      have linked := link_ops part table embeds.left (by omega : 2 * part.size ≤ fuel)
      rcases found_of_embeds embeds.left with ⟨op, found, opens⟩
      rw [Bytecode.linkParts, found]
      simp only [opens, Bool.false_eq_true, if_false]
      generalize Bytecode.link ops fuel here table = outcome at linked ⊢
      rcases outcome with ⟨stop, between⟩
      rcases linked with ⟨rfl, links⟩
      have rest := linkParts_opsAll parts between closes embeds.right
        (by omega : 2 * (opsAll parts).length + 1 ≤ fuel)
      rw [← Nat.add_assoc]
      refine ⟨rest.1, links.append rest.2 (Nat.le_add_right _ _) (Nat.le_add_right _ _)
        fun index inner started => ?_⟩
      have within := within_of_mem_starts part started
      have pos := inner.size_pos
      omega

end

/-- There is nothing to link from the end on. -/
theorem linkAll_end (rounds : Nat) (table : Array Nat) :
    Bytecode.linkAll ops rounds ops.size table = table := by
  cases rounds with
  | zero => rfl
  | succ rounds => rw [Bytecode.linkAll, if_neg (Nat.lt_irrefl _)]

/-- The table of a program has an index for each instruction of its tree. -/
theorem links_code (tree : Instruction) :
    Links (Array.replicate tree.size 0) tree.code.next (tree.starts 0) 0 tree.size := by
  have stands : Embeds tree.ops.toArray tree.ops 0 := List.prefix_rfl
  have sizes : tree.ops.toArray.size = tree.size := List.size_toArray
  have linked := link_ops tree (Array.replicate tree.size 0) stands
    (by rw [sizes]; omega : 2 * tree.size ≤ 2 * tree.ops.toArray.size + 2)
  have pos := tree.size_pos
  rw [code, Bytecode.ofOps, ← size]
  generalize rounds : tree.size = count at pos
  cases count with
  | zero => exact absurd pos (Nat.lt_irrefl 0)
  | succ count =>
      rw [Bytecode.linkAll, sizes, rounds, if_pos pos, ← rounds]
      rw [sizes] at linked
      generalize Bytecode.link tree.ops.toArray (2 * tree.size + 2) 0 _ = outcome at linked ⊢
      rcases outcome with ⟨stop, table⟩
      rcases linked with ⟨rfl, links⟩
      rw [Nat.zero_add] at links ⊢
      simp only
      rw [← sizes, linkAll_end, sizes]
      exact links

/-! ## Programs of the builders -/

theorem enclose_code (opening closing : Op) (parts : List Instruction) :
    Bytecode.enclose opening (parts.map code) closing =
      .ofOps (opening :: (opsAll parts ++ [closing])) := by
  rw [Bytecode.enclose, List.flatMap_map, opsAll_eq]
  rfl

theorem concat_code (parts : List Instruction) :
    Bytecode.concat (parts.map code) = (Instruction.concat parts).code :=
  enclose_code _ _ parts

theorem union_code (parts : List Instruction) :
    Bytecode.union (parts.map code) = (Instruction.union parts).code :=
  enclose_code _ _ parts

theorem star_code (body : Instruction) : Bytecode.star body.code = body.star.code := rfl

theorem literal_code (text : List Char) : Bytecode.literal text = (literal text).code := by
  have several : Bytecode.concat (text.map Bytecode.char) =
      (Instruction.concat (text.map .char)).code := by
    rw [← concat_code, List.map_map]
    rfl
  rcases text with _ | ⟨first, _ | ⟨second, rest⟩⟩
  · exact several
  · rfl
  · exact several

theorem optional_code (part : Instruction) : Bytecode.optional part.code = part.optional.code :=
  union_code [part, .concat []]

theorem times_code (count : Nat) (part : Instruction) :
    Bytecode.times count part.code = (times count part).code := by
  rw [Bytecode.times, ← List.map_replicate, concat_code]
  rfl

theorem atLeast_code (count : Nat) (part : Instruction) :
    Bytecode.atLeast count part.code = (atLeast count part).code := by
  rw [atLeast, ← concat_code, List.map_append, List.map_replicate]
  rfl

theorem between_code (least most : Nat) (part : Instruction) :
    Bytecode.between least most part.code = (between least most part).code := by
  rw [between, ← concat_code, List.map_append, List.map_replicate, List.map_replicate,
    ← optional_code]
  rfl

end Instruction

/-! ## Recipes -/

/-- How a program is put together by the builders. -/
inductive Recipe where
  | literal (text : List Char)
  | range (first last : Char)
  | concat (parts : List Recipe)
  | union (parts : List Recipe)
  | star (part : Recipe)
  | optional (part : Recipe)
  | times (count : Nat) (part : Recipe)
  | atLeast (count : Nat) (part : Recipe)
  | between (least most : Nat) (part : Recipe)

namespace Recipe

mutual

/-- The program that the builders make. -/
def code : Recipe → Bytecode
  | .literal text => .literal text
  | .range first last => .range first last
  | .concat parts => .concat (codes parts)
  | .union parts => .union (codes parts)
  | .star part => .star part.code
  | .optional part => .optional part.code
  | .times count part => .times count part.code
  | .atLeast count part => .atLeast count part.code
  | .between least most part => .between least most part.code

def codes : List Recipe → List Bytecode
  | [] => []
  | part :: parts => part.code :: codes parts

end

mutual

/-- The tree that the program is the flattening of. -/
def tree : Recipe → Instruction
  | .literal text => .literal text
  | .range first last => .range first last
  | .concat parts => .concat (trees parts)
  | .union parts => .union (trees parts)
  | .star part => .star part.tree
  | .optional part => .optional part.tree
  | .times count part => .times count part.tree
  | .atLeast count part => .atLeast count part.tree
  | .between least most part => .between least most part.tree

def trees : List Recipe → List Instruction
  | [] => []
  | part :: parts => part.tree :: trees parts

end

mutual

theorem code_eq : ∀ recipe : Recipe, recipe.code = recipe.tree.code
  | .literal text => Instruction.literal_code text
  | .range _ _ => rfl
  | .concat parts => by rw [code, codes_eq parts, Instruction.concat_code, tree]
  | .union parts => by rw [code, codes_eq parts, Instruction.union_code, tree]
  | .star part => by rw [code, code_eq part, Instruction.star_code, tree]
  | .optional part => by rw [code, code_eq part, Instruction.optional_code, tree]
  | .times count part => by rw [code, code_eq part, Instruction.times_code, tree]
  | .atLeast count part => by rw [code, code_eq part, Instruction.atLeast_code, tree]
  | .between least most part => by rw [code, code_eq part, Instruction.between_code, tree]

theorem codes_eq : ∀ parts : List Recipe, codes parts = (trees parts).map Instruction.code
  | [] => rfl
  | part :: parts => by rw [codes, code_eq part, codes_eq parts, trees, List.map_cons]

end

end Recipe

end Pattern

end Reparse
