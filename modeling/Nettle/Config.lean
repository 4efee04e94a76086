-- The configuration (config.c): a text is read line by line, and each line
-- binds a key to a value. The result `none` is a failure of the hash table.
import Nettle.LinkedHashmap
import Nettle.Utils

open nettle.utils nettle.linked
open nettle.hashmap (str_hash_func str_equal_func)

namespace nettle.config

structure config_t where
  map : hashmap_t (List Char) (List Char)

def config_init : Option config_t := do
  let map ← hashmap_init1 8 str_hash_func str_equal_func
  return ⟨map⟩

/-! ## Files -/

/-- A line with its newline, or as many of its characters as there is room for, and what is left. -/
def read_line : Nat → List Char → List Char × List Char
  | 0, f => ([], f)
  | _, [] => ([], [])
  | room + 1, c :: f =>
    if c = '\n' then ([c], f)
    else
      let (line, f) := read_line room f
      (c :: line, f)

/-- The string that is in the buffer ends at the first NUL. -/
def fgets (size : Nat) (f : List Char) : Option (List Char × List Char) :=
  if f = [] then none
  else
    let (line, f) := read_line (size - 1) f
    some (line.takeWhile (· ≠ '\x00'), f)

/-! ## Lines -/

def SPACES : List Char := [' ', '\t', '\r', '\n']

/-- `%1024s = %1024s`: the fields that are set. -/
def scan_pair (s : List Char) : List (List Char) :=
  match scan_string 1024 s with
  | none => []
  | some (key, s) =>
    match scan_literal '=' (skip_space s) with
    | none => [key]
    | some s =>
      match scan_string 1024 (skip_space s) with
      | none => [key]
      | some (value, _) => [key, value]

/-- The loop of `config_load_from_file`; at most `turns` lines are read. -/
def config_load_loop (fuel : Nat) : Nat → hashmap_t (List Char) (List Char) → List Char →
    Option (hashmap_t (List Char) (List Char))
  | 0, _, _ => none
  | turns + 1, map, f =>
    match fgets 1024 f with
    | none => some map
    | some (line, f) =>
      let s := skip SPACES line
      if s.head? = some '#' ∨ s = [] then config_load_loop fuel turns map f
      else
        match scan_pair s with
        | [key, value] => do
          let (_, map) ← hashmap_put fuel map key value
          config_load_loop fuel turns map f
        | _ => some map

/-- `file` is what the path leads to, `none` when it cannot be opened. -/
def config_load_from_file (fuel : Nat) (config : config_t) (file : Option (List Char)) :
    Option (Bool × config_t) :=
  match file with
  | none => some (false, config)
  | some f => do
    let map ← config_load_loop fuel (f.length + 1) config.map f
    return (true, ⟨map⟩)

/-- `none` inside is NULL. -/
def config_get_default (config : config_t) (key : List Char) (default_value : Option (List Char)) :
    Option (Option (List Char)) := do
  match ← hashmap_get config.map key with
  | some (_, value) => return some value
  | none => return default_value

def config_get (config : config_t) (key : List Char) : Option (Option (List Char)) :=
  config_get_default config key none

end nettle.config
