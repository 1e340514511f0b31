/- `CollectorSerializer` of `slog_glog_fmt/src/collector_serializer.rs`.

   The serializer collects the key-value pairs of a log record as `(key, text)`, the text
   being the value's `Display`, and drops a pair whose key the categorizer ignores. Each
   `emit_*` method is `impl_emit_body!` at its own text (`emitBody`), then `Ok(())`.

   Values keep the code's types: `usize` and `uN` are `USize` and `UIntN`, and `iN` is
   `BitVec N` shown through `toInt`, with `isize` taken 64 bits wide. `f32` and `f64` are
   given by their `Display` text, which Lean's `Float` does not print the same way.

   1. `emitAll_spec`: a run of `emit_*` calls returns `Ok(())`. It appends, in call order,
      the pairs whose key is not ignored, and nothing else.
   2. `collect_spec`: after `new(categorizer)` and any run of `emit_*` calls,
      `into_inner()` holds exactly the pairs of the calls whose key is not ignored, in
      call order. -/
namespace Collector

/-- `CollectorSerializer(Vec<(Key, String)>, &C)`. Of the categorizer, the serializer calls
only `ignore`. -/
structure CollectorSerializer where
  pairs : List (String × String)
  ignore : String → Bool

namespace CollectorSerializer

def new (ignore : String → Bool) : CollectorSerializer := ⟨[], ignore⟩

def intoInner (s : CollectorSerializer) : List (String × String) := s.pairs

section Emit

variable {ε : Type} (s : CollectorSerializer) (key : String)

/-- `impl_emit_body!`, then the `Ok(())` of every `emit_*`: a key the categorizer ignores
is skipped, any other is pushed with the value's text. `slog::Result` is `Except ε Unit`. -/
def emitBody (text : String) : Except ε Unit × CollectorSerializer :=
  if s.ignore key then (.ok (), s) else (.ok (), { s with pairs := s.pairs ++ [(key, text)] })

def emitNone : Except ε Unit × CollectorSerializer := s.emitBody key "None"

def emitUnit : Except ε Unit × CollectorSerializer := s.emitBody key "()"

def emitUsize (val : USize) : Except ε Unit × CollectorSerializer := s.emitBody key (toString val)

def emitIsize (val : BitVec 64) : Except ε Unit × CollectorSerializer :=
  s.emitBody key (toString val.toInt)

def emitBool (val : Bool) : Except ε Unit × CollectorSerializer := s.emitBody key (toString val)

def emitChar (val : Char) : Except ε Unit × CollectorSerializer := s.emitBody key (toString val)

def emitU8 (val : UInt8) : Except ε Unit × CollectorSerializer := s.emitBody key (toString val)

def emitI8 (val : BitVec 8) : Except ε Unit × CollectorSerializer :=
  s.emitBody key (toString val.toInt)

def emitU16 (val : UInt16) : Except ε Unit × CollectorSerializer := s.emitBody key (toString val)

def emitI16 (val : BitVec 16) : Except ε Unit × CollectorSerializer :=
  s.emitBody key (toString val.toInt)

def emitU32 (val : UInt32) : Except ε Unit × CollectorSerializer := s.emitBody key (toString val)

def emitI32 (val : BitVec 32) : Except ε Unit × CollectorSerializer :=
  s.emitBody key (toString val.toInt)

/-- `emit_f32`, at the value's `Display` text. -/
def emitF32 (text : String) : Except ε Unit × CollectorSerializer := s.emitBody key text

def emitU64 (val : UInt64) : Except ε Unit × CollectorSerializer := s.emitBody key (toString val)

def emitI64 (val : BitVec 64) : Except ε Unit × CollectorSerializer :=
  s.emitBody key (toString val.toInt)

/-- `emit_f64`, at the value's `Display` text. -/
def emitF64 (text : String) : Except ε Unit × CollectorSerializer := s.emitBody key text

def emitStr (val : String) : Except ε Unit × CollectorSerializer := s.emitBody key val

/-- `emit_arguments`, at the text the `Arguments` format to. -/
def emitArguments (val : String) : Except ε Unit × CollectorSerializer := s.emitBody key val

variable {s key} {text : String}

@[simp] theorem emitBody_fst :
    (s.emitBody key text : Except ε Unit × CollectorSerializer).1 = .ok () := by
  unfold emitBody
  split <;> rfl

/-- One call appends its pair unless the key is ignored. -/
theorem emitBody_snd : (s.emitBody (ε := ε) key text).2 =
    ⟨s.pairs ++ [(key, text)].filter (fun p => !s.ignore p.1), s.ignore⟩ := by
  unfold emitBody
  split <;> simp_all

end Emit

/-- A record's `serialize`: the `emit_*` calls at their `(key, text)` in order, each
followed by `?`. -/
def emitAll {ε : Type} : CollectorSerializer → List (String × String) →
    Except ε Unit × CollectorSerializer
  | s, [] => (.ok (), s)
  | s, (key, text) :: rest =>
    match s.emitBody key text with
    | (.ok (), s') => emitAll s' rest
    | (.error e, s') => (.error e, s')

/-- A run of calls returns `Ok(())` and appends, in order, the pairs of the keys not
ignored. -/
theorem emitAll_spec {ε : Type} (s : CollectorSerializer) (ps : List (String × String)) :
    (emitAll (ε := ε) s ps).1 = .ok () ∧
      (emitAll (ε := ε) s ps).2 =
        ⟨s.pairs ++ ps.filter (fun p => !s.ignore p.1), s.ignore⟩ := by
  induction ps generalizing s with
  | nil => simp [emitAll]
  | cons p ps ih =>
    obtain ⟨key, text⟩ := p
    have hb : s.emitBody (ε := ε) key text =
        (.ok (), ⟨s.pairs ++ [(key, text)].filter (fun p => !s.ignore p.1), s.ignore⟩) :=
      Prod.ext emitBody_fst emitBody_snd
    simp only [emitAll, hb, ih, List.append_assoc, ← List.filter_append, List.singleton_append,
      and_self]

/-- After `new(categorizer)` and any run of `emit_*` calls, `into_inner()` holds the pairs
of the calls whose key the categorizer does not ignore, in call order. -/
theorem collect_spec {ε : Type} (ignore : String → Bool) (ps : List (String × String)) :
    (emitAll (ε := ε) (new ignore) ps).1 = .ok () ∧
      (emitAll (ε := ε) (new ignore) ps).2.intoInner = ps.filter (fun p => !ignore p.1) := by
  obtain ⟨hok, hs⟩ := emitAll_spec (ε := ε) (new ignore) ps
  exact ⟨hok, by rw [hs]; rfl⟩

example : (emitAll (ε := Unit) (new fun k => k == "ignore1")
    [("test1", "None"), ("ignore1", "()"), ("test2", "7")]).2.intoInner =
      [("test1", "None"), ("test2", "7")] := by decide

end CollectorSerializer

end Collector
