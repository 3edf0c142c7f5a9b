import WebSearch.FilePath

/-! `GetComponents`, `IsParent` and `AppendRelativePath` of `base/file_path.cc`. The loop
climbs with `DirName`; what it collects are the parts between the separators. -/
namespace WebSearch.FilePath
open Library

/-- The number of times the loop can still climb is at most this. -/
def height (path : Bytes) : Nat := if path = kCurrentDirectory then 0 else path.length + 1

theorem stripped_length (n : Nat) : (stripped n).length ≤ n := by
  unfold stripped
  split
  · simp [*]
  · simp only [List.length_replicate]
    exact Nat.min_le_left n 1

theorem rootAbove_length (n : Nat) : (rootAbove n).length ≤ n := by
  unfold rootAbove
  split
  · simp
  · exact (stripped_length _).trans (Nat.sub_le _ _)

theorem height_dirName {path : Bytes} (moves : path ≠ dirName path) : height (dirName path) < height path := by
  have above : path ≠ kCurrentDirectory := fun here => moves (here ▸ rfl)
  have height_path : height path = path.length + 1 := if_neg above
  have bound (dir : Bytes) : height dir ≤ dir.length + 1 := by
    unfold height
    split <;> omega
  have current : height kCurrentDirectory = 0 := rfl
  rw [height_path]
  obtain n | ⟨n,is_name,k⟩ | ⟨ends,n,is_name,k⟩ := shape path
  · rw [dirName_root] at moves ⊢
    split
    · omega
    · rename_i some
      rw [if_neg some] at moves
      have shorter : (stripped n).length < n := by
        match n with
        | 0 => exact absurd rfl some
        | 1 | 2 => exact absurd rfl moves
        | n + 3 => exact (show 1 < n + 3 by omega)
      have := bound (stripped n)
      rw [List.length_replicate]
      omega
  · have filled := List.length_pos_of_ne_nil is_name.filled
    have := bound (rootAbove n)
    have := rootAbove_length n
    rw [dirName_top n is_name k,List.length_append,List.length_append,List.length_replicate]
    split <;> omega
  · have filled := List.length_pos_of_ne_nil is_name.filled
    rename_i front name
    have := bound front
    rw [dirName_below ends n is_name k,List.length_append,List.length_append,List.length_append]
    omega

def areAllSeparators (input : Bytes) : Bool := input.all isSeparator

def captureLoop (current : Bytes) (retVal : List Bytes) : Bytes × List Bytes :=
  if current = dirName current then (current,retVal)
  else captureLoop (dirName current) (if areAllSeparators (baseName current) then retVal else retVal ++ [baseName current])
termination_by height current
decreasing_by exact height_dirName (by assumption)

def getComponents (path : Bytes) : List Bytes :=
  if path = [] then []
  else
    let (current,retVal) := captureLoop path []
    let base := baseName current
    (if base ≠ [] ∧ base ≠ kCurrentDirectory then retVal ++ [base] else retVal).reverse

/-- The second result is what is put at the end of `path`. -/
def appendRelativePath (parent child path : Bytes) : Option Bytes :=
  let parentComponents := getComponents parent
  let childComponents := getComponents child
  if parentComponents = [] ∨ parentComponents.length ≥ childComponents.length then none
  else if parentComponents <+: childComponents then
    some ((childComponents.drop parentComponents.length).foldl append path)
  else none

def isParent (parent child : Bytes) : Bool := (appendRelativePath parent child []).isSome

/-! What the components are. -/

def leading (path : Bytes) : Nat := (path.takeWhile isSeparator).length

def names (path : Bytes) : List Bytes := wordsOf isSeparator path

/-- The root, with its separators the way they are written there. -/
def root (path : Bytes) : List Bytes :=
  if leading path = 0 then []
  else [if names path = [] then stripped (leading path) else rootAbove (leading path)]

/-- A dot in front of other names does not count; as the only name it counts when there are
separators behind it. -/
def below (path : Bytes) : List Bytes :=
  if leading path = 0 ∧ (names path).head? = some kCurrentDirectory ∧ (path = kCurrentDirectory ∨ 1 < (names path).length)
  then (names path).tail
  else names path

section Parts
variable {front name : Bytes}

theorem seps_blank (n : Nat) : ∀ c ∈ seps n, isSeparator c = true := by
  intro c member
  rw [List.eq_of_mem_replicate member]
  rfl

theorem names_root (n : Nat) : names (seps n) = [] := wordsOf_none (seps_blank n)

theorem names_trailing (front : Bytes) (k : Nat) : names (front ++ seps k) = names front := by
  cases k with
  | zero => simp
  | succ k =>
    rw [names,seps,List.replicate_succ,wordsOf_append (show isSeparator kSeparator = true from rfl)]
    rw [wordsOf_none (seps_blank k),List.append_nil]
    rfl

theorem names_after (front : Bytes) (n : Nat) (is_name : Name name) (k : Nat) :
    names (front ++ seps (n + 1) ++ name ++ seps k) = names front ++ [name] := by
  rw [names_trailing,seps,List.replicate_succ,names,List.append_assoc,List.cons_append,
    wordsOf_append (show isSeparator kSeparator = true from rfl),wordsOf_blank (seps_blank n),
    wordsOf_last is_name.filled is_name.letters]
  rfl

theorem names_top (n : Nat) (is_name : Name name) (k : Nat) : names (seps n ++ name ++ seps k) = [name] := by
  rw [names_trailing,names,wordsOf_blank (seps_blank n),wordsOf_last is_name.filled is_name.letters]

theorem leading_root (n : Nat) : leading (seps n) = n := by
  have all : (seps n ++ []).takeWhile isSeparator = seps n ++ List.takeWhile isSeparator [] :=
    List.takeWhile_append_of_pos (seps_blank n)
  rw [List.append_nil,List.takeWhile_nil,List.append_nil] at all
  rw [leading,all,List.length_replicate]

theorem leading_name (n : Nat) (is_name : Name name) (rest : Bytes) : leading (seps n ++ name ++ rest) = n := by
  obtain ⟨c,name,rfl⟩ := List.exists_cons_of_ne_nil is_name.filled
  have letter := is_name.letters c List.mem_cons_self
  rw [leading,List.append_assoc,List.takeWhile_append_of_pos (seps_blank n),List.cons_append,
    List.takeWhile_cons_of_neg (by simp [letter]),List.append_nil,List.length_replicate]

theorem leading_ends (ends : Ends front) (rest : Bytes) : leading (front ++ rest) = leading front := by
  obtain ⟨body,c,rfl,letter⟩ := ends
  have stays (rest : Bytes) : leading (body ++ c :: rest) = leading (body ++ [c]) := by
    unfold leading
    induction body with
    | nil => simp [letter]
    | cons d body ih =>
      rw [List.cons_append,List.cons_append,List.takeWhile_cons,List.takeWhile_cons]
      split <;> simp [ih]
  rw [List.append_assoc]
  exact stays rest

theorem names_ends (ends : Ends front) : names front ≠ [] := by
  obtain n | ⟨n,is_name,k⟩ | ⟨ends',n,is_name,k⟩ := shape front
  · obtain ⟨body,c,same,letter⟩ := ends
    have blank := seps_blank n c (by rw [same]; simp)
    rw [letter] at blank
    contradiction
  · rw [names_top n is_name k]
    exact List.cons_ne_nil _ _
  · rw [names_after _ n is_name k]
    simp

/-- The two directories that are their own root. -/
theorem roots {n : Nat} (some : n ≠ 0) : (stripped n = seps 1 ∨ stripped n = seps 2) ∧
    (rootAbove n = seps 1 ∨ rootAbove n = seps 2) := by
  match n with
  | 1 => exact ⟨.inl rfl,.inl rfl⟩
  | 2 | 3 => exact ⟨by decide,.inr rfl⟩
  | n + 4 => exact ⟨.inl rfl,.inl rfl⟩

theorem captureLoop_stays {dir : Bytes} (stays : dir = dirName dir) (retVal : List Bytes) :
    captureLoop dir retVal = (dir,retVal) := by
  rw [captureLoop,if_pos stays]

theorem captureLoop_root {dir : Bytes} (is_root : dir = seps 1 ∨ dir = seps 2) (retVal : List Bytes) :
    captureLoop dir retVal = (dir,retVal) := by
  apply captureLoop_stays
  obtain rfl | rfl := is_root <;> rfl

theorem captureLoop_climbs {path : Bytes} (moves : path ≠ dirName path) (is_name : Name (baseName path))
    (retVal : List Bytes) : captureLoop path retVal = captureLoop (dirName path) (retVal ++ [baseName path]) := by
  have letters : areAllSeparators (baseName path) = false := by
    obtain ⟨c,more,first⟩ := List.exists_cons_of_ne_nil is_name.filled
    rw [first,areAllSeparators,List.all_cons,is_name.letters c (by simp [first]),Bool.false_and]
  rw [captureLoop,if_neg moves,letters,if_neg Bool.false_ne_true]

theorem dot_alone (ends : Ends front) (relative : leading front = 0)
    (first : (names front).head? = some kCurrentDirectory) : front = kCurrentDirectory ∨ 1 < (names front).length := by
  have kept : stripTrailingSeparators front = front := by simpa using strip_ends ends 0
  obtain n | ⟨n,is_name,k⟩ | ⟨ends',n,is_name,k⟩ := shape front
  · rw [names_root] at first
    contradiction
  · rw [leading_name n is_name] at relative
    rw [names_top n is_name k] at first
    rw [strip_ends (is_name.ends _)] at kept
    left
    rw [← kept,relative]
    exact Option.some.inj first
  · have := List.length_pos_of_ne_nil (names_ends ends')
    right
    rw [names_after _ n is_name k,List.length_append,List.length_singleton]
    omega

theorem below_after (ends : Ends front) (n : Nat) (is_name : Name name) (k : Nat) :
    below (front ++ seps (n + 1) ++ name ++ seps k) = below front ++ [name] := by
  have some := names_ends ends
  have lead : leading (front ++ seps (n + 1) ++ name ++ seps k) = leading front := by
    rw [List.append_assoc,List.append_assoc,leading_ends ends]
  have longer : 1 < (names front ++ [name]).length := by
    have := List.length_pos_of_ne_nil some
    rw [List.length_append,List.length_singleton]
    omega
  have first : (names front ++ [name]).head? = (names front).head? := List.head?_append_of_ne_nil _ some
  unfold below
  rw [lead,names_after front n is_name k,first]
  by_cases dot : leading front = 0 ∧ (names front).head? = Option.some kCurrentDirectory
  · rw [if_pos ⟨dot.1,dot.2,.inr longer⟩,if_pos,List.tail_append_of_ne_nil some]
    exact ⟨dot.1,dot.2,dot_alone ends dot.1 dot.2⟩
  · rw [if_neg fun both => dot ⟨both.1,both.2.1⟩,if_neg fun both => dot ⟨both.1,both.2.1⟩]

/-- Where the climb ends, and what it has collected. -/
def Captured (path : Bytes) : Prop := ∀ retVal, captureLoop path retVal =
  ((root path).head?.getD kCurrentDirectory,retVal ++ (below path).reverse)

theorem captured_seps (n : Nat) : Captured (seps n) := by
  intro retVal
  have nothing : below (seps n) = [] := by
    unfold below
    simp [names_root]
  rw [nothing,root,leading_root,names_root,if_pos rfl,List.reverse_nil,List.append_nil]
  by_cases empty : n = 0
  · subst empty
    have up : captureLoop (seps 0) retVal = captureLoop kCurrentDirectory retVal := by
      rw [captureLoop]
      rfl
    rw [up]
    exact captureLoop_stays rfl retVal
  · have dir := dirName_root n
    rw [if_neg empty] at dir
    rw [if_neg empty,captureLoop,baseName_root,dir]
    have blank : areAllSeparators (stripped n) = true := by
      obtain one | two := (roots empty).1
      · rw [one]
        rfl
      · rw [two]
        rfl
    rw [if_pos blank,captureLoop_root (roots empty).1]
    split
    · rename_i same
      rw [same]
      rfl
    · rfl

theorem captured_top (n : Nat) (is_name : Name name) (k : Nat) : Captured (seps n ++ name ++ seps k) := by
  intro retVal
  have base := baseName_top n is_name k
  have dir := dirName_top n is_name k
  rw [root,leading_name n is_name,names_top n is_name k,if_neg (List.cons_ne_nil _ _)]
  by_cases relative : n = 0
  · rw [if_pos relative] at dir ⊢
    by_cases dot : seps n ++ name ++ seps k = kCurrentDirectory
    · rw [dot,captureLoop_stays rfl]
      exact congrArg (Prod.mk _) (List.append_nil _).symm
    · rw [captureLoop_climbs (by rwa [dir]) (by rwa [base]),dir,base,captureLoop_stays rfl]
      have counted : below (seps n ++ name ++ seps k) = [name] := by
        rw [below,names_top n is_name k,if_neg]
        rintro ⟨-,-,here | more⟩
        · exact dot here
        · exact absurd more (by simp)
      rw [counted]
      rfl
  · rw [if_neg relative] at dir ⊢
    have moves : seps n ++ name ++ seps k ≠ dirName (seps n ++ name ++ seps k) := by
      intro stays
      have same := congrArg names stays
      rw [dir,names_top n is_name k] at same
      obtain one | two := (roots relative).2
      · rw [one,names_root] at same
        contradiction
      · rw [two,names_root] at same
        contradiction
    rw [captureLoop_climbs moves (by rwa [base]),dir,base,captureLoop_root (roots relative).2]
    have counted : below (seps n ++ name ++ seps k) = [name] := by
      rw [below,names_top n is_name k,if_neg]
      rintro ⟨rooted,-⟩
      rw [leading_name n is_name] at rooted
      exact relative rooted
    rw [counted]
    rfl

theorem captured_below (ends : Ends front) (n : Nat) (is_name : Name name) (k : Nat) (above : Captured front) :
    Captured (front ++ seps (n + 1) ++ name ++ seps k) := by
  intro retVal
  have base := baseName_after front n is_name k
  have dir := dirName_below ends n is_name k
  have moves : front ++ seps (n + 1) ++ name ++ seps k ≠ dirName (front ++ seps (n + 1) ++ name ++ seps k) := by
    rw [dir]
    intro stays
    have length := congrArg List.length stays
    rw [List.length_append,List.length_append,List.length_append,List.length_replicate] at length
    omega
  have lead : leading (front ++ seps (n + 1) ++ name ++ seps k) = leading front := by
    rw [List.append_assoc,List.append_assoc,leading_ends ends]
  have same_root : root (front ++ seps (n + 1) ++ name ++ seps k) = root front := by
    unfold root
    rw [lead,names_after front n is_name k,if_neg (List.concat_ne_nil _ _),if_neg (names_ends ends)]
  rw [captureLoop_climbs moves (by rwa [base]),dir,base,above,same_root,below_after ends n is_name k,List.reverse_append,
    List.append_assoc]
  rfl

theorem captured (path : Bytes) : Captured path := by
  induction length : path.length using Nat.strongRecOn generalizing path with
  | ind size ih =>
    obtain n | ⟨n,is_name,k⟩ | ⟨ends,n,is_name,k⟩ := shape path
    · exact captured_seps n
    · exact captured_top n is_name k
    · apply captured_below ends n is_name k
      apply ih _ _ _ rfl
      rw [← length,List.length_append,List.length_append,List.length_append,List.length_replicate]
      omega

theorem getComponents_eq (path : Bytes) : getComponents path = root path ++ below path := by
  rw [getComponents]
  split
  · rename_i empty
    subst empty
    rfl
  · rw [captured path]
    dsimp only
    unfold root
    split
    · have dot : baseName kCurrentDirectory = kCurrentDirectory := rfl
      simp [dot]
    · rename_i rooted
      have own {dir : Bytes} (is_root : dir = seps 1 ∨ dir = seps 2) :
          baseName dir = dir ∧ dir ≠ [] ∧ dir ≠ kCurrentDirectory := by
        obtain rfl | rfl := is_root <;> decide
      split
      · obtain ⟨base,filled,other⟩ := own (roots rooted).1
        simp [base,filled,other]
      · obtain ⟨base,filled,other⟩ := own (roots rooted).2
        simp [base,filled,other]

theorem names_all (path : Bytes) : ∀ name ∈ names path, Name name := by
  intro name member
  obtain ⟨piece,there,rfl⟩ := List.mem_map.mp member
  obtain ⟨filled,letters⟩ := (runs_cut isSeparator path).words piece there
  exact ⟨filled,letters⟩

theorem below_subset (path : Bytes) : below path ⊆ names path := by
  unfold below
  split
  · exact (List.tail_sublist _).subset
  · exact fun _ member => member

theorem below_absolute {path : Bytes} (absolute : leading path ≠ 0) : below path = names path :=
  if_neg fun both => absolute both.1

end Parts

section Append
variable {path name : Bytes}

/-- More names can be put below the path: it is not the current directory in one of its
spellings. -/
def Based (path : Bytes) : Prop := leading path = 0 → names path ≠ [] ∧ names path ≠ [kCurrentDirectory]

theorem based_other (based : Based path) : path ≠ kCurrentDirectory := by
  rintro rfl
  exact (based rfl).2 rfl

theorem append_name (other : path ≠ kCurrentDirectory) (is_name : Name name) :
    append path name = (if separatorAt (stripTrailingSeparators path) ((stripTrailingSeparators path).length - 1) = true ∨
      stripTrailingSeparators path = [] then stripTrailingSeparators path
      else stripTrailingSeparators path ++ [kSeparator]) ++ name := by
  have filled := List.length_pos_of_ne_nil is_name.filled
  rw [append,if_neg other]
  dsimp only
  congr 1
  cases at_end : separatorAt (stripTrailingSeparators path) ((stripTrailingSeparators path).length - 1) with
  | true => simp
  | false =>
    by_cases empty : stripTrailingSeparators path = []
    · simp [empty]
    · have := List.length_pos_of_ne_nil empty
      simp [empty,this,filled]

theorem Ends.separatorAt_end {front : Bytes} (ends : Ends front) : separatorAt front (front.length - 1) = false := by
  obtain ⟨body,c,rfl,letter⟩ := ends
  have last := separatorAt_last body c []
  rw [List.length_append,List.length_singleton,Nat.add_sub_cancel,last,letter]

/-- Below a path that names something. -/
theorem append_ends {front : Bytes} (ends : Ends front) (k : Nat) (other : front ++ seps k ≠ kCurrentDirectory)
    (is_name : Name name) : append (front ++ seps k) name = front ++ seps 1 ++ name := by
  rw [append_name other is_name,strip_ends ends,if_neg]
  · rfl
  · rw [ends.separatorAt_end]
    simpa using ends.ne_nil

theorem append_root {n : Nat} (some : n ≠ 0) (is_name : Name name) : append (seps n) name = stripped n ++ name := by
  have other : seps n ≠ kCurrentDirectory := by
    intro same
    have first := congrArg List.head? same
    rw [seps,List.head?_replicate,if_neg some] at first
    contradiction
  rw [append_name other is_name,strip_seps,if_pos]
  obtain one | two := (roots some).1
  · rw [one]
    exact .inl rfl
  · rw [two]
    exact .inl rfl

theorem root_after {front : Bytes} (ends : Ends front) (rest : Bytes) (named : names (front ++ rest) ≠ []) :
    root (front ++ rest) = root front := by
  unfold root
  rw [leading_ends ends,if_neg named,if_neg (names_ends ends)]

theorem below_trailing {front : Bytes} (ends : Ends front) (k : Nat) (based : Based (front ++ seps k)) :
    below (front ++ seps k) = below front := by
  have lead := leading_ends ends (seps k)
  unfold below
  rw [lead,names_trailing]
  by_cases dot : leading front = 0 ∧ (names front).head? = some kCurrentDirectory
  · have several : 1 < (names front).length := by
      obtain ⟨-,other⟩ := based (lead.trans dot.1)
      rw [names_trailing] at other
      match listed : names front with
      | [] => simp [listed] at dot
      | [single] => simp [listed] at dot other; exact absurd dot.2 other
      | _ :: _ :: _ => simp
    rw [if_pos ⟨dot.1,dot.2,.inr several⟩,if_pos ⟨dot.1,dot.2,.inr several⟩]
  · rw [if_neg fun both => dot ⟨both.1,both.2.1⟩,if_neg fun both => dot ⟨both.1,both.2.1⟩]

theorem append_below {front : Bytes} (ends : Ends front) (k : Nat) (based : Based (front ++ seps k)) (is_name : Name name) :
    getComponents (append (front ++ seps k) name) = getComponents (front ++ seps k) ++ [name] ∧
    Based (append (front ++ seps k) name) := by
  have lead := leading_ends ends (seps k)
  rw [append_ends ends k (based_other based) is_name,getComponents_eq,getComponents_eq,below_trailing ends k based]
  have after := names_after front 0 is_name 0
  have under := below_after ends 0 is_name 0
  simp only [seps,List.replicate_zero,List.append_nil,Nat.zero_add] at after under
  refine ⟨?_,?_⟩
  · rw [under,root_after ends,List.append_assoc (front : Bytes),root_after ends,List.append_assoc]
    · rw [← List.append_assoc,after]
      simp
    · rw [names_trailing]
      exact names_ends ends
  · intro _
    rw [after]
    have := List.length_pos_of_ne_nil (names_ends ends)
    refine ⟨by simp,fun single => ?_⟩
    have length := congrArg List.length single
    rw [List.length_append,List.length_singleton,List.length_singleton] at length
    omega

theorem append_seps {n : Nat} (some : n ≠ 0) (is_name : Name name) :
    getComponents (append (seps n) name) = getComponents (seps n) ++ [name] ∧ Based (append (seps n) name) := by
  rw [append_root some is_name,getComponents_eq,getComponents_eq]
  have plain : root (seps n) = [stripped n] ∧ below (seps n) = [] := by
    refine ⟨?_,?_⟩
    · rw [root,leading_root,names_root,if_neg some,if_pos rfl]
    · rw [below_absolute (by rwa [leading_root]),names_root]
  have rooted (m : Nat) (few : m = 1 ∨ m = 2) : root (seps m ++ name) = [seps m] ∧ below (seps m ++ name) = [name] ∧
      Based (seps m ++ name) := by
    have lead : leading (seps m ++ name) = m := by simpa using leading_name m is_name []
    have listed : names (seps m ++ name) = [name] := by simpa using names_top m is_name 0
    have absolute : leading (seps m ++ name) ≠ 0 := by omega
    refine ⟨?_,?_,fun relative => absurd relative absolute⟩
    · rw [root,if_neg absolute,listed,if_neg (List.cons_ne_nil _ _),lead,rootAbove,if_pos (by omega)]
    · rw [below_absolute absolute,listed]
  rw [plain.1,plain.2]
  obtain one | two := (roots some).1
  · obtain ⟨root_eq,below_eq,based⟩ := rooted 1 (.inl rfl)
    rw [one,root_eq,below_eq]
    exact ⟨rfl,based⟩
  · obtain ⟨root_eq,below_eq,based⟩ := rooted 2 (.inr rfl)
    rw [two,root_eq,below_eq]
    exact ⟨rfl,based⟩

theorem append_based (based : Based path) (is_name : Name name) :
    getComponents (append path name) = getComponents path ++ [name] ∧ Based (append path name) := by
  obtain n | ⟨n,is_last,k⟩ | ⟨ends,n,is_last,k⟩ := shape path
  · apply append_seps _ is_name
    rintro rfl
    exact (based rfl).1 rfl
  · exact append_below (is_last.ends _) k based is_name
  · exact append_below (is_last.ends _) k based is_name

/-- The current directory can be written without a name. -/
def Fine (path : Bytes) : Prop := Based path ∨ path = kCurrentDirectory

theorem fine_strip (path : Bytes) : stripTrailingSeparators path = [] ∨ Fine (stripTrailingSeparators path) := by
  obtain n | ⟨n,is_name,k⟩ | ⟨ends,n,is_name,k⟩ := shape path
  · rw [strip_seps]
    by_cases empty : n = 0
    · subst empty
      exact .inl rfl
    · right; left
      intro relative
      obtain one | two := (roots empty).1
      · rw [one] at relative
        contradiction
      · rw [two] at relative
        contradiction
  · rename_i name
    rw [strip_ends (is_name.ends _)]
    right
    by_cases dot : n = 0 ∧ name = kCurrentDirectory
    · right
      rw [dot.1,dot.2]
      rfl
    · left
      intro relative
      have lead : leading (seps n ++ name) = n := by simpa using leading_name n is_name []
      have listed : names (seps n ++ name) = [name] := by simpa using names_top n is_name 0
      rw [lead] at relative
      rw [listed]
      refine ⟨List.cons_ne_nil _ _,fun single => dot ⟨relative,?_⟩⟩
      exact List.singleton_inj.mp single
  · rename_i front name
    rw [strip_ends (is_name.ends _)]
    right; left
    intro _
    have after : names (front ++ seps (n + 1) ++ name) = names front ++ [name] := by
      simpa using names_after front n is_name 0
    have := List.length_pos_of_ne_nil (names_ends ends)
    rw [after]
    refine ⟨by simp,fun single => ?_⟩
    have length := congrArg List.length single
    rw [List.length_append,List.length_singleton,List.length_singleton] at length
    omega

/-- A name put below a directory can be taken off again. -/
theorem append_fine (fine : Fine path) (is_name : Name name) : baseName (append path name) = name ∧
    stripTrailingSeparators (append path name) = append path name ∧
    (name ≠ kCurrentDirectory → getComponents (append path name) = getComponents path ++ [name]) := by
  have ended (front : Bytes) : stripTrailingSeparators (front ++ name) = front ++ name := by
    simpa using strip_ends (is_name.ends front) 0
  obtain based | rfl := fine
  · have put : ∃ front n, append path name = front ++ seps (n + 1) ++ name := by
      obtain n | ⟨n,is_last,k⟩ | ⟨ends,n,is_last,k⟩ := shape path
      · have some : n ≠ 0 := by
          rintro rfl
          exact (based rfl).1 rfl
        rw [append_root some is_name]
        obtain one | two := (roots some).1
        · exact ⟨[],0,by rw [one]; rfl⟩
        · exact ⟨[],1,by rw [two]; rfl⟩
      · exact ⟨_,0,append_ends (is_last.ends _) k (based_other based) is_name⟩
      · exact ⟨_,0,append_ends (is_last.ends _) k (based_other based) is_name⟩
    obtain ⟨front,n,put⟩ := put
    refine ⟨?_,?_,fun _ => (append_based based is_name).1⟩
    · rw [put]
      simpa using baseName_after front n is_name 0
    · rw [put]
      exact ended _
  · have alone : append kCurrentDirectory name = name := if_pos rfl
    rw [alone]
    refine ⟨?_,?_,fun other => ?_⟩
    · simpa using baseName_top 0 is_name 0
    · exact ended []
    · have relative : leading name = 0 := by simpa using leading_name 0 is_name []
      have listed : names name = [name] := by simpa using names_top 0 is_name 0
      have own : getComponents name = [name] := by
        rw [getComponents_eq,root,if_pos relative,below,if_neg,listed]
        · rfl
        · rintro ⟨-,first,-⟩
          rw [listed] at first
          exact other (Option.some.inj first)
      have none : getComponents kCurrentDirectory = [] := by decide +kernel
      rw [own,none]
      rfl

theorem appends_based (based : Based path) {rest : List Bytes} (named : ∀ name ∈ rest, Name name) :
    getComponents (rest.foldl append path) = getComponents path ++ rest := by
  induction rest generalizing path with
  | nil => simp
  | cons name rest ih =>
    obtain ⟨is_name,named⟩ := List.forall_mem_cons.mp named
    obtain ⟨added,based⟩ := append_based based is_name
    rw [List.foldl_cons,ih based named,added,List.append_assoc,List.singleton_append]

/-- Only the first component can be other than a name. -/
theorem components_named (path : Bytes) : ∀ name ∈ (getComponents path).tail, Name name := by
  intro name member
  apply names_all path
  apply below_subset
  rw [getComponents_eq] at member
  unfold root at member
  split at member
  · exact (List.tail_sublist _).subset member
  · exact member

theorem isParent_cut {parent child : Bytes} (inside : isParent parent child = true) : getComponents parent ≠ [] ∧
    ∃ rest, rest ≠ [] ∧ getComponents child = getComponents parent ++ rest ∧
    ∀ path, appendRelativePath parent child path = some (rest.foldl append path) := by
  unfold isParent appendRelativePath at inside
  dsimp only at inside
  split at inside
  · contradiction
  · rename_i longer
    rw [not_or] at longer
    split at inside
    · rename_i first
      obtain ⟨rest,same⟩ := first
      refine ⟨longer.1,rest,?_,same.symm,fun path => ?_⟩
      · rintro rfl
        rw [List.append_nil] at same
        exact longer.2 (same ▸ le_rfl)
      · rw [appendRelativePath,← same,if_neg,if_pos (List.prefix_append _ _),List.drop_left]
        rw [same,not_or]
        exact longer
    · contradiction

/-- The way from the parent to the child, put below another path, or below the parent. -/
theorem relative_path (parent child path : Bytes) (inside : isParent parent child = true) (based : Based path) :
    ∃ rest, rest ≠ [] ∧ getComponents child = getComponents parent ++ rest ∧
    ∃ target, appendRelativePath parent child path = some target ∧ getComponents target = getComponents path ++ rest := by
  obtain ⟨some,rest,more,cut,appended⟩ := isParent_cut inside
  refine ⟨rest,more,cut,_,appended path,appends_based based ?_⟩
  intro name member
  apply components_named child
  rw [cut,List.tail_append_of_ne_nil some]
  exact List.mem_append_right _ member

theorem relative_path_usr : ∃ target,
    appendRelativePath "/usr/".toUTF8.toList "/usr//lib/x".toUTF8.toList "out".toUTF8.toList = some target ∧
    getComponents target = ["out".toUTF8.toList,"lib".toUTF8.toList,"x".toUTF8.toList] := by
  obtain ⟨rest,-,cut,target,appended,components⟩ := relative_path "/usr/".toUTF8.toList
    "/usr//lib/x".toUTF8.toList "out".toUTF8.toList (by decide +kernel) (fun _ => by decide +kernel)
  have child : getComponents "/usr//lib/x".toUTF8.toList =
      getComponents "/usr/".toUTF8.toList ++ ["lib".toUTF8.toList,"x".toUTF8.toList] := by decide +kernel
  have out : getComponents "out".toUTF8.toList = ["out".toUTF8.toList] := by decide +kernel
  have both := List.append_cancel_left (cut.symm.trans child)
  exact ⟨target,appended,by rw [components,both,out]; rfl⟩

end Append

theorem isAbsolute_leading (path : Bytes) : isAbsolute path = true ↔ leading path ≠ 0 := by
  cases path with
  | nil => decide
  | cons c path =>
    unfold isAbsolute separatorAt leading
    cases letter : isSeparator c <;> simp [letter]

/-- A relative path has its names as components, less a dot in front of another name; an
absolute one has a root of one or two separators before them. -/
theorem components_listed (path : Bytes) :
    (isAbsolute path = true → ∃ n, (n = 1 ∨ n = 2) ∧ getComponents path = seps n :: names path) ∧
    (isAbsolute path = false → (names path).head? ≠ some kCurrentDirectory → getComponents path = names path) ∧
    ∀ rest, isAbsolute path = false → names path = kCurrentDirectory :: rest → getComponents path =
      if rest = [] ∧ path ≠ kCurrentDirectory then [kCurrentDirectory] else rest := by
  rw [getComponents_eq,Bool.eq_false_iff,ne_eq,isAbsolute_leading,not_not]
  refine ⟨fun absolute => ?_,fun relative other => ?_,fun rest relative dotted => ?_⟩
  · rw [root,if_neg absolute,below_absolute absolute]
    obtain ⟨bare,named⟩ := roots absolute
    split
    · obtain one | two := bare
      · exact ⟨1,.inl rfl,by rw [one]; rfl⟩
      · exact ⟨2,.inr rfl,by rw [two]; rfl⟩
    · obtain one | two := named
      · exact ⟨1,.inl rfl,by rw [one]; rfl⟩
      · exact ⟨2,.inr rfl,by rw [two]; rfl⟩
  · rw [root,if_pos relative,below,if_neg fun both => other both.2.1]
    rfl
  · rw [root,if_pos relative,below,dotted,List.nil_append]
    by_cases alone : rest = []
    · subst alone
      by_cases here : path = kCurrentDirectory
      · subst here
        rfl
      · simp [here]
    · have several : 1 < (kCurrentDirectory :: rest).length := by
        have := List.length_pos_of_ne_nil alone
        rw [List.length_cons]
        omega
      rw [if_pos ⟨relative,rfl,.inr several⟩,if_neg fun both => alone both.1]
      rfl

end WebSearch.FilePath
