-- The names of the buffers: a result buffer is named after its operation and the type of its
-- device, and its replica is named after both for the first ten operations only.
import HeroDB.MorselPlan

namespace hero.data_parallelism

/-- The name of the replica, on a device of type `target`, of the result buffer that operation `m`
has on a device of type `source`. -/
def replica_name (source target : Device_Type) (m : Nat) : Option Name :=
  get_input_buffer_name_for_device_replication target
    (get_result_buffer_name source (get_operation_alias_name m))

/-- The replica of operation `m` is named as its result buffer on the target, so it shares no name
with a replica of operation `n`. -/
def NamesReplica (m n : Nat) (source source' target : Device_Type) : Prop :=
  replica_name source target m =
      some (get_result_buffer_name target (get_operation_alias_name m)) ∧
    (m ≠ n → replica_name source target m ≠ replica_name source' target n)

/-! ## Digits -/

section digits

variable {m n : Nat} {c : Char}

theorem toDigits_inj : Nat.toDigits 10 m = Nat.toDigits 10 n ↔ m = n := by
  refine ⟨fun h => ?_, fun h => by rw [h]⟩
  rw [← Nat.ofDigitChars_ten_toDigits (n := m), h, Nat.ofDigitChars_ten_toDigits]

theorem digit_of_mem (h : c ∈ Nat.toDigits 10 n) : c.isDigit :=
  Nat.isDigit_of_mem_toDigits (by omega) (by omega) h

theorem one_digit (h : n < 10) : ∃ c, Nat.toDigits 10 n = [c] :=
  ⟨_, Nat.toDigits_of_lt_base h⟩

theorem more_digits (h : 10 ≤ n) : ∃ c d rest, Nat.toDigits 10 n = c :: d :: rest := by
  have hlength : ¬(Nat.toDigits 10 n).length ≤ 1 := by
    rw [Nat.length_toDigits_le_iff (by omega) (by omega)]
    omega
  match hdigits : Nat.toDigits 10 n with
  | [] => simp [hdigits] at hlength
  | [c] => simp [hdigits] at hlength
  | c :: d :: rest => exact ⟨c, d, rest, rfl⟩

end digits

/-! ## Result buffers and their replicas -/

section replicas

variable {m n : Nat} {t t' s : Device_Type}

def stem : Name := ['r', 'e', 's', 'u', 'l', 't', '_', 'o', 'p', '_']

/-- What stands behind the stem in the name of a result buffer. -/
def result_tail (t : Device_Type) (m : Nat) : Name := Nat.toDigits 10 m ++ '_' :: t.name

theorem type_name (t : Device_Type) :
    ∃ a rest, t.name = a :: rest ∧ ¬a.isDigit ∧ a ≠ '_' := by
  cases t with
  | CPU => exact ⟨'C', ['P', 'U'], by decide⟩
  | GPU => exact ⟨'G', ['P', 'U'], by decide⟩

theorem result_name_eq :
    get_result_buffer_name t (get_operation_alias_name m) = stem ++ result_tail t m := by
  unfold get_result_buffer_name get_operation_alias_name
  rw [to_string_nat, result_chars, op_chars, underscore_chars]
  unfold stem result_tail
  simp only [List.cons_append, List.nil_append, List.append_assoc]

theorem replica_name_eq :
    replica_name t t' m =
      some (stem ++ ((result_tail t m).take 2 ++ t'.name ++ (result_tail t m).drop 5)) := by
  rw [replica_name, replicated_of_length (length_result_name t m), result_name_eq]
  simp only [stem, List.cons_append, List.nil_append, List.take_succ_cons, List.drop_succ_cons]

/-- A replica of one of the first ten operations. -/
theorem replica_name_of_lt (h : m < 10) :
    replica_name t t' m = some (get_result_buffer_name t' (get_operation_alias_name m)) := by
  obtain ⟨c, hc⟩ := one_digit h
  have htype : t.name.length = 3 := by cases t <;> decide
  rw [replica_name_eq, result_name_eq, result_tail, result_tail, hc]
  simp [List.drop_eq_nil_of_le, htype]

/-- From the tenth operation on, the type of the target stands behind two digits. -/
theorem replica_name_of_ge (t t' : Device_Type) (h : 10 ≤ m) :
    ∃ c d rest, Nat.toDigits 10 m = c :: d :: rest ∧
      replica_name t t' m =
        some (stem ++ c :: d :: (t'.name ++ (result_tail t m).drop 5)) := by
  obtain ⟨c, d, rest, hdigits⟩ := more_digits h
  refine ⟨c, d, rest, hdigits, ?_⟩
  rw [replica_name_eq, result_tail, hdigits]
  simp only [List.cons_append, List.nil_append, List.take_succ_cons, List.take_zero]

/-- No result buffer has the name of such a replica: where the type of the target stands in it, the
result buffer has a digit or an underscore. -/
theorem replica_ne_result (h : 10 ≤ m) :
    replica_name t t' m ≠ some (get_result_buffer_name s (get_operation_alias_name n)) := by
  obtain ⟨c, d, rest, hdigits, hreplica⟩ := replica_name_of_ge t t' h
  obtain ⟨a, type, htype, ha, hunderscore⟩ := type_name t'
  have htail : result_tail s n = Nat.toDigits 10 n ++ '_' :: s.name := rfl
  rw [hreplica, result_name_eq, ne_eq, Option.some.injEq, List.append_cancel_left_eq, htype, htail]
  by_cases hn : n < 10
  · obtain ⟨c', hc'⟩ := one_digit hn
    rw [hc']
    intro heq
    obtain rfl : d = '_' := (List.cons.inj (List.cons.inj heq).2).1
    exact absurd (digit_of_mem (n := m) (by simp [hdigits])) (by decide : ¬ '_'.isDigit)
  · obtain ⟨c', d', rest', hdigits'⟩ := more_digits (by omega : 10 ≤ n)
    rw [hdigits']
    intro heq
    have hrest := (List.cons.inj (List.cons.inj heq).2).2
    cases rest' with
    | nil => exact hunderscore (List.cons.inj hrest).1
    | cons e more =>
      obtain rfl : a = e := (List.cons.inj hrest).1
      exact ha (digit_of_mem (n := n) (by simp [hdigits']))

theorem replicas_apart (h : m < 10) (hne : m ≠ n) : replica_name t t' m ≠ replica_name s t' n := by
  rw [replica_name_of_lt h]
  by_cases hn : n < 10
  · rw [replica_name_of_lt hn, result_name_eq, result_name_eq]
    simp [result_tail, toDigits_inj, hne]
  · exact (replica_ne_result (by omega)).symm

end replicas

/-- The replicas of operation `m` are named after it, apart from those of all others, if and only if
`m` is one of the first ten operations. -/
theorem names_replica_iff (m n : Nat) (source source' target : Device_Type) :
    NamesReplica m n source source' target ↔ m < 10 := by
  constructor
  · intro h
    by_contra hm
    exact replica_ne_result (by omega) h.1
  · intro hm
    exact ⟨replica_name_of_lt hm, replicas_apart hm⟩

/-- The tenth operation, and two operations whose replicas share a name. -/
theorem replicas_of_one_name :
    ¬NamesReplica 10 0 .GPU .GPU .CPU ∧
      replica_name .GPU .CPU 100 = replica_name .GPU .CPU 101 := by
  refine ⟨fun h => replica_ne_result (by omega) h.1, ?_⟩
  decide

end hero.data_parallelism
