import WebSearch.FilePath

/-! The extensions of `base/file_path.cc`. `Extension` looks at the name alone and
`RemoveExtension` at the whole path. -/
namespace WebSearch.FilePath

def toLowerASCII (c : UInt8) : UInt8 := if 65 ≤ c ∧ c ≤ 90 then c + 32 else c

def lowerCaseEqualsASCII : Bytes → Bytes → Bool
  | [],b => b = []
  | _ :: _,[] => false
  | c :: a,d :: b => toLowerASCII c = d && lowerCaseEqualsASCII a b

def kCommonDoubleExtensions : List Bytes := [[103,122],[122],[98,122,50]]

def isDot (c : UInt8) : Bool := c = kExtensionSeparator

/-- `ExtensionSeparatorPosition` once the last dot has been found. -/
def extensionDot (path : Bytes) (lastDot : Nat) : Nat :=
  if lastDot = 0 ∨ kCommonDoubleExtensions.any (lowerCaseEqualsASCII (path.drop (lastDot + 1))) = false then lastDot
  else
    let lastSeparator := findLast isSeparator (path.take lastDot)
    match findLast isDot (path.take lastDot) with
    | none => lastDot
    | some penultimateDot =>
      if (∀ last ∈ lastSeparator, last < penultimateDot) ∧ lastDot - penultimateDot ≤ 5 ∧ 1 < lastDot - penultimateDot then
        penultimateDot
      else lastDot

def extensionSeparatorPosition (path : Bytes) : Option Nat :=
  if path = kCurrentDirectory ∨ path = kParentDirectory then none
  else (findLast isDot path).map (extensionDot path)

def extension (path : Bytes) : Bytes :=
  match extensionSeparatorPosition (baseName path) with
  | none => []
  | some dot => (baseName path).drop dot

def removeExtension (path : Bytes) : Bytes :=
  if extension path = [] then path
  else
    match extensionSeparatorPosition path with
    | none => path
    | some dot => path.take dot

section Position
variable {q : UInt8 → Bool} {front back : Bytes}

theorem findLast_append_some {i : Nat} (found : findLast q back = some i) (front : Bytes) :
    findLast q (front ++ back) = some (front.length + i) := by
  induction front with
  | nil => simpa using found
  | cons c front ih =>
    rw [List.cons_append,findLast,ih]
    dsimp only
    rw [List.length_cons]
    congr 1
    omega

theorem findLast_append_none (missing : findLast q back = none) (front : Bytes) :
    findLast q (front ++ back) = findLast q front := by
  induction front with
  | nil => exact missing
  | cons c front ih => rw [List.cons_append,findLast,findLast,ih]

theorem findLast_lt {text : Bytes} {i : Nat} (found : findLast q text = some i) : i < text.length := by
  induction text generalizing i with
  | nil => contradiction
  | cons c text ih =>
    rw [findLast] at found
    split at found
    · rename_i j there
      have := ih there
      cases found
      rw [List.length_cons]
      omega
    · split at found
      · cases found
        exact Nat.succ_pos _
      · contradiction

/-- The directory in front of a name: nothing, or something that a separator ends. -/
def Dir (dir : Bytes) : Prop := dir = [] ∨ ∃ above, dir = above ++ [kSeparator]

theorem Dir.findLast {dir : Bytes} (is_dir : Dir dir) (filled : dir ≠ []) :
    findLast isSeparator dir = some (dir.length - 1) := by
  obtain rfl | ⟨above,rfl⟩ := is_dir
  · contradiction
  · rw [findLast_append rfl above (by simp),List.length_append,List.length_singleton,Nat.add_sub_cancel]

theorem extensionDot_le (path : Bytes) (lastDot : Nat) : extensionDot path lastDot ≤ lastDot := by
  unfold extensionDot
  split
  · exact le_rfl
  · dsimp only
    split
    · exact le_rfl
    · split <;> omega

/-- The dot is where it is in the name: a dot further in front has a separator behind it. -/
theorem extensionDot_name {dir name : Bytes} (is_dir : Dir dir) (filled : dir ≠ []) (is_name : Name name) {last : Nat}
    (inside : last ≤ name.length) : extensionDot (dir ++ name) (dir.length + last) = dir.length + extensionDot name last := by
  have positive := List.length_pos_of_ne_nil filled
  have letters : findLast isSeparator (name.take last) = none :=
    findLast_none fun c member => is_name.letters c (List.mem_of_mem_take member)
  have taken : (dir ++ name).take (dir.length + last) = dir ++ name.take last := List.take_length_add_append last
  have dropped : (dir ++ name).drop (dir.length + last + 1) = name.drop (last + 1) := List.drop_length_add_append (last + 1)
  unfold extensionDot
  rw [taken,dropped,letters,findLast_append_none letters,is_dir.findLast filled]
  by_cases common : kCommonDoubleExtensions.any (lowerCaseEqualsASCII (name.drop (last + 1))) = false
  · rw [if_pos (.inr common),if_pos (.inr common)]
  · have further : ¬(dir.length + last = 0 ∨ kCommonDoubleExtensions.any (lowerCaseEqualsASCII (name.drop (last + 1))) = false) := by
      rintro (start | no)
      · omega
      · exact common no
    rw [if_neg further]
    dsimp only
    cases found : findLast isDot (name.take last) with
    | none =>
      rw [findLast_append_none found,ite_self]
      cases outside : findLast isDot dir with
      | none => rfl
      | some p =>
        have := findLast_lt outside
        dsimp only
        rw [if_neg]
        rintro ⟨after,-⟩
        have := after _ rfl
        omega
    | some p =>
      have before := findLast_lt found
      rw [List.length_take] at before
      have inner : ¬(last = 0 ∨ kCommonDoubleExtensions.any (lowerCaseEqualsASCII (name.drop (last + 1))) = false) := by
        rintro (start | no)
        · omega
        · exact common no
      rw [findLast_append_some found,if_neg inner]
      dsimp only
      have same : dir.length + last - (dir.length + p) = last - p := by omega
      have behind : ∀ i ∈ some (dir.length - 1), i < dir.length + p := by
        intro i member
        cases member
        omega
      rw [same]
      by_cases close : last - p ≤ 5 ∧ 1 < last - p
      · rw [if_pos ⟨behind,close⟩,if_pos ⟨by simp,close⟩]
      · rw [if_neg fun both => close both.2,if_neg fun both => close both.2]

theorem position_name {dir name : Bytes} (is_dir : Dir dir) (is_name : Name name) {p : Nat}
    (found : extensionSeparatorPosition name = some p) : extensionSeparatorPosition (dir ++ name) = some (dir.length + p) := by
  by_cases empty : dir = []
  · simpa [empty] using found
  · have other (c : UInt8) (rest : Bytes) (letters : ∀ d ∈ c :: rest, isSeparator d = false) : dir ++ name ≠ c :: rest := by
      intro same
      obtain nothing | ⟨above,rfl⟩ := is_dir
      · exact empty nothing
      · have separator := letters kSeparator (by rw [← same]; simp)
        contradiction
    unfold extensionSeparatorPosition at found ⊢
    split at found
    · contradiction
    · obtain ⟨last,there,rfl⟩ := Option.map_eq_some_iff.mp found
      rw [if_neg,findLast_append_some there,Option.map_some,extensionDot_name is_dir empty is_name (findLast_lt there).le]
      rintro (here | up)
      · exact other 46 [] (List.forall_mem_singleton.mpr rfl) here
      · exact other 46 [46] (List.forall_mem_cons.mpr ⟨rfl,List.forall_mem_singleton.mpr rfl⟩) up

theorem position_lt {path : Bytes} {p : Nat} (found : extensionSeparatorPosition path = some p) : p < path.length := by
  unfold extensionSeparatorPosition at found
  split at found
  · contradiction
  · obtain ⟨last,there,rfl⟩ := Option.map_eq_some_iff.mp found
    exact (extensionDot_le path last).trans_lt (findLast_lt there)

end Position

/-- Every path is a directory, a name and separators, or separators alone. -/
theorem name_at_end (path : Bytes) : (∃ n, path = seps n) ∨
    ∃ dir name k, Dir dir ∧ Name name ∧ path = dir ++ name ++ seps k ∧ baseName path = name := by
  obtain n | ⟨n,is_name,k⟩ | ⟨ends,n,is_name,k⟩ := shape path
  · exact .inl ⟨n,rfl⟩
  · right
    refine ⟨_,_,k,?_,is_name,rfl,baseName_top n is_name k⟩
    cases n with
    | zero => exact .inl rfl
    | succ n => exact .inr ⟨seps n,List.replicate_succ'⟩
  · rename_i front name
    right
    refine ⟨_,_,k,.inr ⟨front ++ seps n,?_⟩,is_name,rfl,baseName_after _ n is_name k⟩
    rw [seps,List.replicate_succ',List.append_assoc]

/-- What the header promises of every path holds of those that do not end in a separator. -/
theorem extension_split (path : Bytes) : removeExtension path ++ extension path = path ↔
    extension path = [] ∨ ∀ c ∈ path.getLast?, isSeparator c = false := by
  by_cases none : extension path = []
  · simp [removeExtension,none]
  · obtain ⟨n,rfl⟩ | ⟨dir,name,k,is_dir,is_name,rfl,base⟩ := name_at_end path
    · refine absurd ?_ none
      rw [extension,baseName_root]
      match n with
      | 0 | 1 | 2 => rfl
      | n + 3 => rfl
    · have text : extension (dir ++ name ++ seps k) = match extensionSeparatorPosition name with
        | Option.none => []
        | some dot => name.drop dot := by rw [extension,base]
      cases found : extensionSeparatorPosition name with
      | none => exact absurd (by rw [text,found]) none
      | some p =>
        rw [found] at text
        have inside := position_lt found
        have letters : ∀ c ∈ name.drop p, isSeparator c = false := fun c member =>
          is_name.letters c (List.mem_of_mem_drop member)
        cases k with
        | zero =>
          have position := position_name is_dir is_name found
          rw [seps,List.replicate_zero,List.append_nil] at none text ⊢
          rw [removeExtension,if_neg none,position,text]
          dsimp only
          rw [List.take_length_add_append,List.append_assoc,List.take_append_drop]
          refine iff_of_true rfl (.inr ?_)
          intro c last
          rw [List.getLast?_append_of_ne_nil _ is_name.filled] at last
          exact is_name.letters c (List.mem_of_getLast? last)
        | succ k =>
          have ending : (dir ++ name ++ seps (k + 1)).getLast? = some kSeparator := by
            rw [seps,List.replicate_succ',← List.append_assoc,List.getLast?_concat]
          apply iff_of_false
          · intro same
            have last := congrArg List.getLast? same
            rw [ending,text,List.getLast?_append_of_ne_nil _ (by rwa [text] at none)] at last
            have letter := letters _ (List.mem_of_getLast? last)
            contradiction
          · rintro (empty | letter)
            · exact none empty
            · have separator := letter _ ending
              contradiction

end WebSearch.FilePath
