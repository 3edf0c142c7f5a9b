import WebSearch.MessageConverter
import Mathlib.Algebra.Order.BigOperators.Group.List
import Mathlib.Algebra.Order.Ring.Nat
import Mathlib.Algebra.Order.Group.Nat

/-! Escaping, entry splitting and key/value splitting agree: the text of a map
reads back as that map exactly when it is short enough for the `int` counters and for the
index behind its end. -/
namespace WebSearch.MessageConverter

/-- The encoding of a string without the `int` counter. -/
def escape (s : Bytes) : Bytes := s.flatMap (fun c => if special c then [backslash,c] else [c])

theorem escape_nil : escape [] = [] := rfl

theorem escape_cons (c : UInt8) (s : Bytes) :
    escape (c :: s) = (if special c then [backslash,c] else [c]) ++ escape s := rfl

theorem length_le_escape (s : Bytes) : s.length ≤ (escape s).length := by
  induction s with
  | nil => simp
  | cons c s ih =>
    rw [escape_cons]
    split <;> simp <;> omega

theorem plain_not_special {c : UInt8} (plain : ¬special c = true) :
    c ≠ comma ∧ c ≠ colon ∧ c ≠ backslash := by
  simp only [special,Bool.or_eq_true,beq_iff_eq,not_or] at plain
  exact ⟨plain.1.1,plain.2,plain.1.2⟩

theorem encodeLoop_escape (s result : Bytes) : encodeLoop s result = result ++ escape s := by
  induction s generalizing result with
  | nil => simp [encodeLoop,escape_nil]
  | cons c s ih =>
    simp only [encodeLoop,escape_cons,ih]
    split <;> simp

theorem decodeLoop_escape (s result : Bytes) : decodeLoop (escape s) result = (true,result ++ s) := by
  induction s generalizing result with
  | nil => simp [escape_nil,decodeLoop]
  | cons c s ih =>
    rw [escape_cons]
    split
    · rename_i escaped
      simp [decodeLoop,escaped,ih]
    · rename_i plain
      simp [decodeLoop_plain (plain_not_special plain).2.2,ih]

theorem Scan.prepend_prepend (first second : Bytes) (stop : Scan) :
    (stop.prepend second).prepend first = stop.prepend (first ++ second) := by
  cases stop <;> simp [Scan.prepend]

theorem Scan.prepend_nil (stop : Scan) : stop.prepend [] = stop := by
  cases stop <;> simp [Scan.prepend]

/-- An escaped string holds no separator that the scan can stop on. -/
theorem scan_escape {separator : UInt8} (isSeparator : separator = comma ∨ separator = colon)
    (s tail : Bytes) : scan separator (escape s ++ tail) = (scan separator tail).prepend (escape s) := by
  induction s with
  | nil => simp [escape_nil,Scan.prepend_nil]
  | cons c s ih =>
    rw [escape_cons]
    split
    · simp [scan,ih,Scan.prepend_prepend]
    · rename_i plain
      obtain ⟨notComma,notColon,notBackslash⟩ := plain_not_special plain
      have different : c ≠ separator := by rcases isSeparator with rfl | rfl <;> assumption
      simp [scan_plain notBackslash different,ih,Scan.prepend_prepend]

theorem scan_escape_found {separator : UInt8} (isSeparator : separator = comma ∨ separator = colon)
    (s tail : Bytes) : scan separator (escape s ++ separator :: tail) = .found (escape s) tail := by
  have notBackslash : separator ≠ backslash := by rcases isSeparator with rfl | rfl <;> decide
  simp [scan_escape isSeparator,scan_separator notBackslash,Scan.prepend]

theorem scan_escape_end {separator : UInt8} (isSeparator : separator = comma ∨ separator = colon)
    (s : Bytes) : scan separator (escape s) = .atEnd (escape s) := by
  have whole := scan_escape isSeparator s []
  simpa [scan,Scan.prepend] using whole

/-- A cut through an escaped string falls between two characters or leaves a
lone backslash at the end. -/
theorem escape_take (s : Bytes) (n : Nat) :
    ∃ j, (escape s).take n = escape (s.take j) ∨ (escape s).take n = escape (s.take j) ++ [backslash] := by
  induction s generalizing n with
  | nil => exact ⟨0,.inl (by simp [escape_nil])⟩
  | cons c s ih =>
    rw [escape_cons]
    split
    · rename_i escaped
      match n with
      | 0 => exact ⟨0,.inl (by simp [escape_nil])⟩
      | 1 => exact ⟨0,.inr (by simp [escape_nil])⟩
      | n+2 =>
        obtain ⟨j,cut⟩ := ih n
        refine ⟨j+1,?_⟩
        simpa [escape_cons,escaped] using cut
    · rename_i plain
      match n with
      | 0 => exact ⟨0,.inl (by simp [escape_nil])⟩
      | n+1 =>
        obtain ⟨j,cut⟩ := ih n
        refine ⟨j+1,?_⟩
        simpa [escape_cons,plain] using cut

def entryText (entry : Bytes × Bytes) : Bytes := escape entry.1 ++ colon :: escape entry.2

/-- Entries that follow another one, each after its comma. -/
def followers : List (Bytes × Bytes) → Bytes
  | [] => []
  | entry :: rest => comma :: (entryText entry ++ followers rest)

/-- The text of a map without the `int` counters. -/
def text : List (Bytes × Bytes) → Bytes
  | [] => []
  | entry :: rest => entryText entry ++ followers rest

def escapedLength (m : StringMap) : Nat := (text m.entries).length

theorem followers_text (entry : Bytes × Bytes) (rest : List (Bytes × Bytes)) :
    followers (entry :: rest) = comma :: text (entry :: rest) := rfl

/-- The size of the entries with one separator for each: one more than the text
unless there is none. -/
def weight (entries : List (Bytes × Bytes)) : Nat :=
  (entries.map (fun entry => (entryText entry).length + 1)).sum

theorem followers_length (entries : List (Bytes × Bytes)) : (followers entries).length = weight entries := by
  induction entries with
  | nil => rfl
  | cons entry rest ih =>
    simp only [followers,weight,List.length_cons,List.length_append,List.map_cons,List.sum_cons] at ih ⊢
    omega

theorem text_length_le (entries : List (Bytes × Bytes)) : (text entries).length ≤ weight entries := by
  cases entries with
  | nil => simp [text]
  | cons entry rest =>
    have size := followers_length rest
    simp only [text,weight,List.length_append,List.map_cons,List.sum_cons] at size ⊢
    omega

theorem weight_le_text (entries : List (Bytes × Bytes)) : weight entries ≤ (text entries).length + 1 := by
  cases entries with
  | nil => simp [weight]
  | cons entry rest =>
    have size := followers_length rest
    simp only [text,weight,List.length_append,List.map_cons,List.sum_cons] at size ⊢
    omega

theorem weight_insertEntry (entry : Bytes × Bytes) (entries : List (Bytes × Bytes)) :
    weight (insertEntry entry entries) ≤ (entryText entry).length + 1 + weight entries := by
  induction entries with
  | nil => simp [insertEntry,weight]
  | cons head rest ih =>
    unfold insertEntry
    split
    · simp [weight]
    · split
      · omega
      · simp only [weight,List.map_cons,List.sum_cons] at ih ⊢
        omega

/-- `EncodeString` reads its argument through an `int` length. -/
def truncated (entry : Bytes × Bytes) : Bytes × Bytes := (visited entry.1,visited entry.2)

theorem writeEntry_eq (str : Bytes) (entry : Bytes × Bytes) :
    writeEntry str entry = str ++ entryText (truncated entry) := by
  simp [writeEntry,encodeString,encodeLoop_escape,entryText,truncated]

theorem mapToString_text (m : StringMap) (str : Bytes) :
    mapToString m str = str ++ text (m.entries.map truncated) := by
  have rest_text (rest : List (Bytes × Bytes)) (before : Bytes) :
      rest.foldl (fun str entry => writeEntry (str ++ [comma]) entry) before =
        before ++ followers (rest.map truncated) := by
    induction rest generalizing before with
    | nil => simp [followers]
    | cons entry rest ih =>
      rw [List.foldl_cons,ih]
      simp [followers,writeEntry_eq]
  unfold mapToString
  cases m.entries with
  | nil => simp [text]
  | cons entry rest =>
    dsimp only
    rw [rest_text]
    simp [text,writeEntry_eq]

theorem truncated_of_short {entries : List (Bytes × Bytes)} (short : (text entries).length < 2^31) :
    entries.map truncated = entries := by
  have bound : ∀ entry ∈ entries, (entryText entry).length + 1 ≤ weight entries := by
    intro entry member
    exact List.le_sum_of_mem (List.mem_map_of_mem member)
  have total := weight_le_text entries
  conv_rhs => rw [← List.map_id entries]
  apply List.map_congr_left
  intro entry member
  have size := bound entry member
  have first := length_le_escape entry.1
  have second := length_le_escape entry.2
  simp only [entryText,List.length_append,List.length_cons] at size
  simp [truncated,visited_small (s := entry.1) (by omega),visited_small (s := entry.2) (by omega)]

theorem scan_key_entry (len : Nat) (entry : Bytes × Bytes) (tail : Bytes) :
    (scan colon (entryText entry ++ tail)).key len = .ok (escape entry.1,escape entry.2 ++ tail) := by
  have found := scan_escape_found (.inr rfl) entry.1 (escape entry.2 ++ tail)
  simp [entryText,found,Scan.key]

/-- Behind the last value the index goes on to one more than the length. -/
theorem scan_value_followers (len : Nat) (value : Bytes) (rest : List (Bytes × Bytes)) :
    (scan comma (escape value ++ followers rest)).value len = .ok (escape value) ∧
      (scan comma (escape value ++ followers rest)).next len = if rest = [] then increment len (.ok []) else .ok (text rest) := by
  cases rest with
  | nil => simp [followers,scan_escape_end (.inl rfl),Scan.value,Scan.next]
  | cons entry rest =>
    rw [followers_text,scan_escape_found (.inl rfl),if_neg (List.cons_ne_nil _ _)]
    exact ⟨rfl,rfl⟩

theorem decodeString_escape {s : Bytes} (short : (escape s).length < 2^31) :
    decodeString (escape s) [] = (true,s) := by
  simp [decodeString,visited_small short,decodeLoop_escape]

theorem readEntry_text (len : Nat) (entry : Bytes × Bytes) (rest : List (Bytes × Bytes))
    (short : (text (entry :: rest)).length < 2^31) : readEntry len (text (entry :: rest)) =
      if rest = [] then increment len (.ok (entry,[])) else .ok (entry,text rest) := by
  have size : (escape entry.1).length < 2^31 ∧ (escape entry.2).length < 2^31 := by
    simp only [text,entryText,List.length_append,List.length_cons] at short
    omega
  obtain ⟨value,next⟩ := scan_value_followers len entry.2 rest
  simp only [readEntry,text,scan_key_entry,value,next,bind,Except.bind,decodeString_escape size.1,
    decodeString_escape size.2,Bool.and_self,if_true]
  by_cases last : rest = []
  · rw [if_pos last,if_pos last,increment,increment]
    by_cases room : len < intMax
    · rw [if_pos room,if_pos room]
      rfl
    · rw [if_neg room,if_neg room]
  · rw [if_neg last,if_neg last]
    rfl

theorem insertEntry_last (entry : Bytes × Bytes) (entries : List (Bytes × Bytes))
    (last : ∀ other ∈ entries, other.1 < entry.1) : insertEntry entry entries = entries ++ [entry] := by
  induction entries with
  | nil => rfl
  | cons head rest ih =>
    have before := last head (by simp)
    have notBefore : ¬entry.1 < head.1 := fun after => List.lt_asymm before after
    have different : entry.1 ≠ head.1 := by
      intro same
      rw [same] at before
      exact List.lt_irrefl _ before
    simp [insertEntry,notBefore,different,ih (fun other member => last other (by simp [member]))]

theorem text_rest_le (entry : Bytes × Bytes) (rest : List (Bytes × Bytes)) :
    (text rest).length ≤ (text (entry :: rest)).length := by
  have size := text_length_le rest
  have total := followers_length rest
  have whole : (text (entry :: rest)).length = (entryText entry).length + (followers rest).length := by
    simp [text]
  omega

theorem text_ne_nil (entry : Bytes × Bytes) (rest : List (Bytes × Bytes)) : text (entry :: rest) ≠ [] := by
  simp [text,entryText]

/-- Reading a short text inserts its entries in order; increasing keys keep every
entry behind the ones that were read before. -/
theorem stringToMapLoop_text {len : Nat} (room : len < intMax) (entries : List (Bytes × Bytes)) (m : StringMap)
    (sorted : (m.entries ++ entries).Pairwise (fun a b => a.1 < b.1))
    (short : (text entries).length < 2^31) :
    ∃ result, stringToMapLoop len (text entries) m = some (true,result) ∧ result.entries = m.entries ++ entries := by
  induction entries generalizing m with
  | nil => exact ⟨m,stringToMapLoop_nil len m,by simp⟩
  | cons entry rest ih =>
    have last : ∀ other ∈ m.entries, other.1 < entry.1 := by
      intro other member
      exact (List.pairwise_append.mp sorted).2.2 other member entry (by simp)
    have inserted : (m.insert entry).entries = m.entries ++ [entry] := insertEntry_last entry m.entries last
    have smaller := text_rest_le entry rest
    obtain ⟨result,ran,final⟩ := ih (m.insert entry) (by simpa [inserted] using sorted) (by omega)
    refine ⟨result,?_,by simpa [inserted] using final⟩
    have read : readEntry len (text (entry :: rest)) = .ok (entry,text rest) := by
      rw [readEntry_text len entry rest short,increment,if_pos room]
      split
      · rename_i none
        rw [none]
        rfl
      · rfl
    rw [stringToMapLoop,if_neg (text_ne_nil entry rest)]
    split
    · rename_i failed
      rw [read] at failed
      cases failed
    · rename_i failed
      rw [read] at failed
      cases failed
    · rename_i found
      rw [read] at found
      cases found
      exact ran

/-- In a text of the length of the largest `int` the index behind the last value overflows. -/
theorem stringToMapLoop_overflow {len : Nat} (full : ¬len < intMax) (entries : List (Bytes × Bytes)) (m : StringMap)
    (some_entry : entries ≠ []) (short : (text entries).length < 2^31) : stringToMapLoop len (text entries) m = none := by
  induction entries generalizing m with
  | nil => exact absurd rfl some_entry
  | cons entry rest ih =>
    have read := readEntry_text len entry rest short
    rw [stringToMapLoop,if_neg (text_ne_nil entry rest)]
    by_cases last : rest = []
    · rw [if_pos last,increment,if_neg full] at read
      split <;> simp_all
    · rw [if_neg last] at read
      have smaller := text_rest_le entry rest
      split
      · rename_i failed
        rw [read] at failed
        cases failed
      · rfl
      · rename_i found
        rw [read] at found
        cases found
        exact ih (m.insert entry) last (by omega)

/-- Where a cut after `n` bytes can fall: in the key, in the value, or behind the
comma that follows it. -/
theorem text_take (entry : Bytes × Bytes) (others : List (Bytes × Bytes)) (n : Nat) :
    (text (entry :: others)).take n = (escape entry.1).take n ∨
    (∃ m, (text (entry :: others)).take n = escape entry.1 ++ colon :: (escape entry.2).take m) ∨
    (∃ m, (text (entry :: others)).take n =
      escape entry.1 ++ colon :: (escape entry.2 ++ comma :: (text others).take m)) := by
  by_cases inKey : n ≤ (escape entry.1).length
  · exact .inl (by simp only [text,entryText,List.append_assoc,List.take_append_of_le_length inKey])
  obtain ⟨m,rfl⟩ : ∃ m, n = (escape entry.1).length + (m + 1) := ⟨n - (escape entry.1).length - 1,by omega⟩
  have keyed : (text (entry :: others)).take ((escape entry.1).length + (m + 1)) =
      escape entry.1 ++ colon :: (escape entry.2 ++ followers others).take m := by
    simp [text,entryText,List.take_append]
  rw [keyed]
  by_cases inValue : m ≤ (escape entry.2).length
  · exact .inr (.inl ⟨m,by rw [List.take_append_of_le_length inValue]⟩)
  obtain ⟨k,rfl⟩ : ∃ k, m = (escape entry.2).length + (k + 1) := ⟨m - (escape entry.2).length - 1,by omega⟩
  cases others with
  | nil => exact .inr (.inl ⟨(escape entry.2).length + (k + 1),by simp [followers]⟩)
  | cons next rest => exact .inr (.inr ⟨k,by simp [followers_text,List.take_append]⟩)

theorem scan_escape_take {separator : UInt8} (isSeparator : separator = comma ∨ separator = colon)
    (s : Bytes) (n : Nat) : scan separator ((escape s).take n) = .pastEnd ∨
      ∃ j, (escape s).take n = escape (s.take j) ∧ scan separator ((escape s).take n) = .atEnd (escape (s.take j)) := by
  obtain ⟨j,whole | half⟩ := escape_take s n
  · exact .inr ⟨j,whole,by rw [whole,scan_escape_end isSeparator]⟩
  · refine .inl ?_
    rw [half,scan_escape isSeparator]
    simp [scan,Scan.prepend]

/-- What the loop can still take in from a text: each entry costs its characters
and one separator, and the last one has none. -/
def budget (str : Bytes) : Nat := if str = [] then 0 else str.length + 1

theorem budget_le (str : Bytes) : budget str ≤ str.length + 1 := by
  unfold budget
  split <;> omega

/-- Reading a text that was cut never takes in more than its bytes: a cut inside
a key or behind a lone backslash is an error, a cut inside a value shortens it. -/
theorem readEntry_cut (len : Nat) (entry : Bytes × Bytes) (others : List (Bytes × Bytes)) (n : Nat)
    (short : ((text (entry :: others)).take n).length < 2^31) {found : Bytes × Bytes} {rest : Bytes}
    (ok : readEntry len ((text (entry :: others)).take n) = .ok (found,rest)) :
    (entryText found).length + 1 + budget rest ≤ ((text (entry :: others)).take n).length + 1 ∧
      ∃ m, rest = (text others).take m := by
  obtain ⟨rawKey,afterKey,rawValue,keyEnd,valueEnd,rfl⟩ := readEntry_ok ok
  rcases text_take entry others n with cut | ⟨m,cut⟩ | ⟨m,cut⟩
  · rw [cut] at keyEnd
    rcases scan_escape_take (.inr rfl) entry.1 n with stop | ⟨j,_,stop⟩ <;>
      rw [stop] at keyEnd <;> cases keyEnd
  · rw [cut] at short ⊢
    rw [cut,scan_escape_found (.inr rfl) entry.1] at keyEnd
    cases keyEnd
    rcases scan_escape_take (.inl rfl) entry.2 m with stop | ⟨j,same,stop⟩
    · rw [stop] at valueEnd
      rcases valueEnd with wrong | ⟨wrong,_⟩ <;> cases wrong
    · rw [stop] at valueEnd
      rcases valueEnd with wrong | ⟨last,rfl,_⟩
      · cases wrong
      · cases last
        rw [same] at short ⊢
        simp only [List.length_append,List.length_cons] at short
        rw [decodeString_escape (show (escape entry.1).length < 2^31 by omega),
          decodeString_escape (show (escape (entry.2.take j)).length < 2^31 by omega)]
        exact ⟨by simp [entryText,budget],⟨0,by simp⟩⟩
  · rw [cut] at short ⊢
    rw [cut,scan_escape_found (.inr rfl) entry.1] at keyEnd
    cases keyEnd
    rw [scan_escape_found (.inl rfl) entry.2] at valueEnd
    rcases valueEnd with here | ⟨wrong,_⟩
    · cases here
      simp only [List.length_append,List.length_cons] at short
      rw [decodeString_escape (show (escape entry.1).length < 2^31 by omega),
        decodeString_escape (show (escape entry.2).length < 2^31 by omega)]
      have left := budget_le ((text others).take m)
      refine ⟨?_,⟨m,rfl⟩⟩
      simp only [entryText,List.length_append,List.length_cons]
      omega
    · cases wrong

theorem stringToMapLoop_cut (len : Nat) (entries : List (Bytes × Bytes)) (n : Nat) (m result : StringMap)
    (short : ((text entries).take n).length < 2^31)
    (ok : stringToMapLoop len ((text entries).take n) m = some (true,result)) :
    weight result.entries ≤ weight m.entries + budget ((text entries).take n) := by
  induction entries generalizing n m with
  | nil =>
    simp only [text,List.take_nil,stringToMapLoop_nil,Option.some.injEq,Prod.mk.injEq,true_and] at ok
    simp [ok,text,budget]
  | cons entry others ih =>
    rw [stringToMapLoop] at ok
    split at ok
    · rename_i empty
      simp only [Option.some.injEq,Prod.mk.injEq] at ok
      simp [ok.2]
    · rename_i nonempty
      split at ok
      · simp at ok
      · simp at ok
      · rename_i found rest read
        obtain ⟨cost,k,remaining⟩ := readEntry_cut len entry others n short read
        have shorter := readEntry_shorter read
        rw [remaining] at ok cost shorter
        have later := ih k (m.insert found) (by omega) ok
        have inserted : weight (m.insert found).entries ≤ (entryText found).length + 1 + weight m.entries :=
          weight_insertEntry found m.entries
        have whole : budget ((text (entry :: others)).take n) = ((text (entry :: others)).take n).length + 1 := by
          simp only [budget,nonempty,if_false]
        omega

/-- The text that is written for `m` reads back as exactly `m`. -/
def RoundTrips (m : StringMap) : Prop := stringToMap (mapToString m []) .empty = some (true,m)

theorem written_of_short {m : StringMap} (short : escapedLength m < 2^31) :
    stringToMap (mapToString m []) .empty = stringToMapLoop (escapedLength m) (text m.entries) .empty := by
  have written : mapToString m [] = text m.entries := by
    simp [mapToString_text,truncated_of_short short]
  rw [stringToMap,written,visited_small short]
  rfl

theorem roundTrips_of_short {m : StringMap} (short : escapedLength m < intMax) : RoundTrips m := by
  have fits : escapedLength m < 2^31 := by unfold intMax at short; omega
  obtain ⟨result,ran,final⟩ := stringToMapLoop_text short m.entries .empty (by simpa [StringMap.empty] using m.sorted) fits
  rw [RoundTrips,written_of_short fits,ran]
  exact congrArg (fun map => some (true,map)) (StringMap.ext (by simpa [StringMap.empty] using final))

theorem uncut_of_roundTrips {m : StringMap} (same : RoundTrips m) : escapedLength m < 2^31 := by
  unfold RoundTrips stringToMap at same
  rw [mapToString_text,List.nil_append] at same
  have short := visited_length_lt (text (m.entries.map truncated))
  have bound := stringToMapLoop_cut _ _ _ _ _ short same
  have left := budget_le (visited (text (m.entries.map truncated)))
  have size : escapedLength m ≤ weight m.entries - 1 := by
    unfold escapedLength
    cases m.entries with
    | nil => simp [text]
    | cons entry rest =>
      have others := followers_length rest
      simp only [text,weight,List.length_append,List.map_cons,List.sum_cons] at others ⊢
      omega
  have none : weight StringMap.empty.entries = 0 := rfl
  unfold visited at left short
  omega

theorem short_of_roundTrips {m : StringMap} (same : RoundTrips m) : escapedLength m < intMax := by
  have uncut := uncut_of_roundTrips same
  by_contra full
  have some_entry : m.entries ≠ [] := by
    intro none
    apply full
    rw [escapedLength,none]
    decide
  rw [RoundTrips,written_of_short uncut,stringToMapLoop_overflow full m.entries .empty some_entry uncut] at same
  cases same

/-- Exactly the maps whose escaped text is shorter than the largest `int` survive. -/
theorem roundTrips_iff (m : StringMap) : RoundTrips m ↔ escapedLength m < intMax :=
  ⟨short_of_roundTrips,roundTrips_of_short⟩

theorem long_value_lost {value : Bytes} (long : 2^31 ≤ value.length) :
    ¬RoundTrips (StringMap.empty.insert ([],value)) := by
  intro same
  have size := length_le_escape value
  have short := uncut_of_roundTrips same
  simp only [escapedLength,StringMap.insert,StringMap.empty,insertEntry,text,entryText,followers,
    List.append_nil,List.length_append,List.length_cons] at short
  omega

/-- A single value of `2^31` bytes is written as the empty string. -/
theorem roundTrip_fails : ¬RoundTrips (StringMap.empty.insert ([],List.replicate (2^31) 97)) :=
  long_value_lost (Nat.le_of_eq List.length_replicate.symm)

end WebSearch.MessageConverter
