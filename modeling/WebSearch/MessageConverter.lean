import WebSearch.Base.Bytes
import WebSearch.Library.Loop

/-! `base/message_converter`: a string map written as `key1:value1,key2:value2`
with `,`, `:` and `\` escaped by a backslash, and the reader of that text. Every
length is taken through the `int` counters of the source; an index of the reader that
is incremented beyond the range of an `int` leaves the text. -/
namespace WebSearch.MessageConverter

def comma : UInt8 := 44
def colon : UInt8 := 58
def backslash : UInt8 := 92

/-- `std::map<std::string, std::string>`: entries in strictly increasing key
order, as its iteration visits them. -/
structure StringMap where
  entries : List (Bytes × Bytes)
  sorted : entries.Pairwise (fun a b => a.1 < b.1)

@[ext] theorem StringMap.ext {a b : StringMap} (same : a.entries = b.entries) : a = b := by
  cases a; cases b; cases same; rfl

def StringMap.empty : StringMap := ⟨[],.nil⟩

/-- `std::map::insert`: a key that is already present keeps its value. -/
def insertEntry (entry : Bytes × Bytes) : List (Bytes × Bytes) → List (Bytes × Bytes)
  | [] => [entry]
  | head :: rest =>
    if entry.1 < head.1 then entry :: head :: rest
    else if entry.1 = head.1 then head :: rest
    else head :: insertEntry entry rest

theorem mem_insertEntry {entry other : Bytes × Bytes} {entries : List (Bytes × Bytes)}
    (member : other ∈ insertEntry entry entries) : other = entry ∨ other ∈ entries := by
  induction entries with
  | nil => simpa [insertEntry] using member
  | cons head rest ih =>
    unfold insertEntry at member
    split at member
    · simpa using member
    · split at member
      · exact .inr member
      · rcases List.mem_cons.mp member with rfl | inside
        · simp
        · rcases ih inside with same | old <;> simp [*]

theorem insertEntry_sorted (entry : Bytes × Bytes) (entries : List (Bytes × Bytes))
    (sorted : entries.Pairwise (fun a b => a.1 < b.1)) :
    (insertEntry entry entries).Pairwise (fun a b => a.1 < b.1) := by
  induction entries with
  | nil => simp [insertEntry]
  | cons head rest ih =>
    obtain ⟨first,tail⟩ := List.pairwise_cons.mp sorted
    unfold insertEntry
    split
    · rename_i before
      refine List.pairwise_cons.mpr ⟨?_,sorted⟩
      intro other member
      rcases List.mem_cons.mp member with rfl | inside
      · exact before
      · exact List.lt_trans before (first other inside)
    · split
      · exact sorted
      · rename_i notBefore different
        refine List.pairwise_cons.mpr ⟨?_,ih tail⟩
        intro other member
        rcases mem_insertEntry member with rfl | old
        · exact (List.le_iff_lt_or_eq.mp (List.not_lt.mp notBefore)).resolve_right (Ne.symm different)
        · exact first other old

def StringMap.insert (m : StringMap) (entry : Bytes × Bytes) : StringMap :=
  ⟨insertEntry entry m.entries,insertEntry_sorted entry m.entries m.sorted⟩

/-- The characters that are escaped. -/
def special (c : UInt8) : Bool := c == comma || c == backslash || c == colon

def encodeLoop : Bytes → Bytes → Bytes
  | [], result => result
  | c :: rest, result =>
    encodeLoop rest ((if special c then result ++ [backslash] else result) ++ [c])

def encodeString (str result : Bytes) : Bytes := encodeLoop (visited str) result

def decodeLoop : Bytes → Bytes → Bool × Bytes
  | [], result => (true,result)
  | c :: rest, result =>
    if c = backslash then
      match rest with
      | [] => (false,result)
      | e :: rest => if special e then decodeLoop rest (result ++ [e]) else (false,result)
    else decodeLoop rest (result ++ [c])

theorem decodeLoop_plain {c : UInt8} (plain : c ≠ backslash) (rest result : Bytes) :
    decodeLoop (c :: rest) result = decodeLoop rest (result ++ [c]) := by
  rw [decodeLoop.eq_def]
  simp [plain]

def decodeString (str result : Bytes) : Bool × Bytes := decodeLoop (visited str) result

def writeEntry (str : Bytes) (entry : Bytes × Bytes) : Bytes :=
  encodeString entry.2 (encodeString entry.1 str ++ [colon])

def mapToString (strmap : StringMap) (str : Bytes) : Bytes :=
  match strmap.entries with
  | [] => str
  | first :: rest => rest.foldl (fun str entry => writeEntry (str ++ [comma]) entry) (writeEntry str first)

/-- Where the scan for an unescaped separator stops: on the separator, at the
end of the text, or one past it when the last character is a lone backslash. -/
inductive Scan
  | found (before after : Bytes)
  | atEnd (before : Bytes)
  | pastEnd

def Scan.prepend (read : Bytes) : Scan → Scan
  | found before after => .found (read ++ before) after
  | atEnd before => .atEnd (read ++ before)
  | pastEnd => .pastEnd

def scan (separator : UInt8) : Bytes → Scan
  | [] => .atEnd []
  | c :: rest =>
    if c = backslash then
      match rest with
      | [] => .pastEnd
      | e :: rest => (scan separator rest).prepend [c,e]
    else if c = separator then .found [] rest
    else (scan separator rest).prepend [c]

theorem scan_plain {separator c : UInt8} (plain : c ≠ backslash) (different : c ≠ separator) (rest : Bytes) :
    scan separator (c :: rest) = (scan separator rest).prepend [c] := by
  rw [scan.eq_def]
  simp [plain,different]

theorem scan_separator {separator : UInt8} (plain : separator ≠ backslash) (rest : Bytes) :
    scan separator (separator :: rest) = .found [] rest := by
  rw [scan.eq_def]
  simp [plain]

/-- The largest `int`. -/
def intMax : Nat := 2^31 - 1

/-- What ends a round of the loop of `StringToMap`: `return false`, or an overflow after
which the source reads outside of the text. -/
inductive Stop
  | refused
  | overflow
  deriving DecidableEq

/-- An index that has reached the length of the text is incremented. -/
def increment {α : Type} (len : Nat) (next : Except Stop α) : Except Stop α :=
  if len < intMax then next else .error .overflow

/-- `j >= len` is an error: a key has to end in `:`. -/
def Scan.key (len : Nat) : Scan → Except Stop (Bytes × Bytes)
  | found before after => .ok (before,after)
  | atEnd _ => .error .refused
  | pastEnd => increment len (.error .refused)

/-- `k > len` is an error; a value may also end with the text. -/
def Scan.value (len : Nat) : Scan → Except Stop Bytes
  | found before _ => .ok before
  | atEnd before => .ok before
  | pastEnd => increment len (.error .refused)

/-- The text from `k + 1` on. -/
def Scan.next (len : Nat) : Scan → Except Stop Bytes
  | found _ after => .ok after
  | atEnd _ => increment len (.ok [])
  | pastEnd => increment len (.error .refused)

theorem Scan.prepend_found {read before after : Bytes} {stop : Scan} (found : stop.prepend read = .found before after) :
    ∃ front, stop = .found front after := by
  cases stop with
  | found front rest =>
    obtain ⟨_,same⟩ := Scan.found.inj found
    exact ⟨front,by rw [same]⟩
  | atEnd front => cases found
  | pastEnd => cases found

theorem scan_found_shorter (separator : UInt8) (str : Bytes) {before after : Bytes}
    (found : scan separator str = .found before after) : after.length < str.length := by
  fun_induction scan separator str generalizing before with
  | case1 => cases found
  | case2 => cases found
  | case3 e tail ih =>
    obtain ⟨front,inner⟩ := Scan.prepend_found found
    have shorter := ih inner
    simp only [List.length_cons]
    omega
  | case4 tail =>
    cases found
    simp
  | case5 c tail escaped different ih =>
    obtain ⟨front,inner⟩ := Scan.prepend_found found
    have shorter := ih inner
    simp only [List.length_cons]
    omega

/-- One round of the loop of `StringToMap`: the entry at the front of the text
and the text after it. The entry is inserted before `i = k + 1`. -/
def readEntry (len : Nat) (str : Bytes) : Except Stop ((Bytes × Bytes) × Bytes) := do
  let (rawKey,afterKey) ← (scan colon str).key len
  let valueEnd := scan comma afterKey
  let rawValue ← valueEnd.value len
  let key := decodeString rawKey []
  let value := decodeString rawValue []
  if key.1 && value.1 then
    let rest ← valueEnd.next len
    return ((key.2,value.2),rest)
  else .error .refused

theorem Scan.key_ok {len : Nat} {stop : Scan} {ends : Bytes × Bytes} (ok : stop.key len = .ok ends) :
    stop = .found ends.1 ends.2 := by
  cases stop with
  | found before after =>
    cases ok
    rfl
  | atEnd before => cases ok
  | pastEnd =>
    simp only [Scan.key,increment] at ok
    split at ok <;> cases ok

/-- A value that ends with the text is the last one, and the index behind it is an `int`. -/
theorem Scan.value_next_ok {len : Nat} {stop : Scan} {raw rest : Bytes} (value : stop.value len = .ok raw)
    (next : stop.next len = .ok rest) : stop = .found raw rest ∨ stop = .atEnd raw ∧ rest = [] ∧ len < intMax := by
  cases stop with
  | found before after =>
    cases value
    cases next
    exact .inl rfl
  | atEnd before =>
    cases value
    simp only [Scan.next,increment] at next
    split at next
    · cases next
      exact .inr ⟨rfl,rfl,‹_›⟩
    · cases next
  | pastEnd =>
    simp only [Scan.value,increment] at value
    split at value <;> cases value

/-- What a round of the loop has found when it goes on. -/
theorem readEntry_ok {len : Nat} {str rest : Bytes} {entry : Bytes × Bytes} (ok : readEntry len str = .ok (entry,rest)) :
    ∃ rawKey afterKey rawValue, scan colon str = .found rawKey afterKey ∧
      (scan comma afterKey = .found rawValue rest ∨ scan comma afterKey = .atEnd rawValue ∧ rest = [] ∧ len < intMax) ∧
      entry = ((decodeString rawKey []).2,(decodeString rawValue []).2) := by
  unfold readEntry at ok
  obtain ⟨⟨rawKey,afterKey⟩,keyEnd,ok⟩ := Library.except_bind_ok.mp ok
  obtain ⟨rawValue,valueEnd,ok⟩ := Library.except_bind_ok.mp ok
  dsimp only at ok
  split at ok
  · obtain ⟨tail,next,ok⟩ := Library.except_bind_ok.mp ok
    cases ok
    exact ⟨rawKey,afterKey,rawValue,Scan.key_ok keyEnd,Scan.value_next_ok valueEnd next,rfl⟩
  · cases ok

theorem readEntry_shorter {len : Nat} {str rest : Bytes} {entry : Bytes × Bytes}
    (ok : readEntry len str = .ok (entry,rest)) : rest.length < str.length := by
  obtain ⟨rawKey,afterKey,rawValue,keyEnd,valueEnd,_⟩ := readEntry_ok ok
  have first := scan_found_shorter colon str keyEnd
  obtain found | ⟨_,rfl,_⟩ := valueEnd
  · exact (scan_found_shorter comma afterKey found).trans first
  · exact Nat.zero_lt_of_lt first

/-- A failure returns false and leaves the entries read so far in the map; after an
overflow there is no result. -/
def stringToMapLoop (len : Nat) (str : Bytes) (strmap : StringMap) : Option (Bool × StringMap) :=
  if str = [] then some (true,strmap)
  else match _read : readEntry len str with
    | .error .refused => some (false,strmap)
    | .error .overflow => none
    | .ok (entry,rest) => stringToMapLoop len rest (strmap.insert entry)
termination_by str.length
decreasing_by exact readEntry_shorter _read

theorem stringToMapLoop_nil (len : Nat) (strmap : StringMap) : stringToMapLoop len [] strmap = some (true,strmap) := by
  rw [stringToMapLoop,if_pos rfl]

def stringToMap (str : Bytes) (strmap : StringMap) : Option (Bool × StringMap) :=
  stringToMapLoop (visited str).length (visited str) strmap

end WebSearch.MessageConverter
