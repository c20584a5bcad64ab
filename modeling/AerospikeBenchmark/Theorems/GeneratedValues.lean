import AerospikeBenchmark.Lemmas.Accepted
import AerospikeBenchmark.Lemmas.Generate

/-!
# Generated values conform to their spec

For every accepted text, what `obj_spec_gen_value` returns conforms to the spec. It returns on every stream of random words in
which the words its rejection loops wait for come again; on other streams `gen_rand_range_64` may draw for ever.
-/

namespace AerospikeBenchmark

open CText Words SpecTree

variable {R : AsRandom}

theorem firstFrom_zeros {lo : Nat} (hlo : 0 < lo) (n : Nat) : firstFrom lo (List.replicate n 0) = .error .outOfWords := by
  induction n with
  | zero => rfl
  | succ n ih => rw [List.replicate_succ, firstFrom, if_pos hlo, ih]

end AerospikeBenchmark
