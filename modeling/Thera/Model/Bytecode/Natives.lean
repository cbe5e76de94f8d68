import Mathlib

/-! # The native table

Natives are bound by name on the wire and by table index in memory. Only the names matter to the
bytecode layer; the implementations belong to the interpreter.
-/

namespace Thera.Bytecode

/-- The names of `NATIVES`, in index order. -/
def natives : List String := [
  "println", "print", "str_concat", "list_index", "list_get", "list_len", "list_set", "map_new",
  "map_index", "map_get", "map_len", "map_has", "map_set", "eq", "str_len", "str_byte_len", "str_trim",
  "str_compare", "str_trim_start", "str_trim_end", "str_contains", "str_starts_with", "str_ends_with",
  "str_to_uppercase", "str_to_lowercase", "str_lines", "str_split_whitespace", "str_split", "str_slice",
  "str_chars", "str_bytes", "str_from_chars", "str_try_from_chars", "int_to_double", "double_to_int",
  "double_to_bits", "math_sqrt", "math_pow", "math_floor", "math_ceil", "math_round", "math_trunc",
  "math_exp", "math_ln", "math_log10", "math_sin", "math_cos", "math_tan", "math_asin", "math_acos",
  "math_atan", "math_atan2", "math_hypot", "str_to_int", "str_to_double", "fs_read_text", "fs_write_text",
  "fs_read_bytes", "fs_write_bytes", "fs_exists", "fs_list_dir", "fs_read_dir", "fs_metadata",
  "fs_symlink_metadata", "fs_create_dir", "fs_create_dir_all", "fs_remove", "fs_remove_dir_all",
  "fs_rename", "fs_copy", "fs_temp_dir", "fs_temp_file", "fs_open", "fs_create", "file_read", "file_write",
  "file_seek", "file_close", "time_now_millis", "time_monotonic_nanos", "time_sleep_millis",
  "random_seed_entropy", "env_get", "env_set", "env_vars", "env_args", "env_current_dir",
  "env_current_exe", "env_set_current_dir", "env_os", "env_exit", "term_is_tty", "term_size", "map_keys",
  "map_values", "map_remove", "map_clear", "list_join", "list_push", "list_pop", "list_clear",
  "process_run", "process_exec", "process_start", "process_wait", "process_kill", "process_stdin_write",
  "process_stdin_close", "process_stdout_read", "process_stderr_read", "bytes_len", "bytes_get",
  "bytes_slice", "bytes_concat", "bytes_to_string", "bytes_to_list", "bytes_empty", "bytes_from_list",
  "bytesbuilder_new", "bytesbuilder_write_u8", "bytesbuilder_write_bytes", "bytesbuilder_write_str",
  "bytesbuilder_len", "bytesbuilder_finish", "io_stdin_read", "io_stdout_write", "io_stderr_write",
  "eprintln", "eprint", "int_to_string", "double_to_string", "bool_to_string", "str_identity",
  "string_debug", "bytes_debug", "test_capture_begin", "test_capture_end", "fiber_spawn", "fiber_join",
  "fiber_yield", "channel_new", "channel_send", "channel_receive", "channel_close", "hash_sha256",
  "hash_sha1", "hash_md5", "hash_crc32", "str_byte_slice", "regex_compile", "regex_is_match", "regex_find",
  "regex_find_all", "regex_captures", "regex_replace", "regex_replace_all", "socket_listen",
  "socket_accept", "socket_connect", "socket_connect_finish", "socket_read", "socket_write",
  "socket_close", "socket_local_addr", "socket_peer_addr", "socket_resolve", "socket_is_ready",
  "fiber_is_done", "chan_is_ready", "select_park", "tls_connect", "tls_accept", "tls_handshake",
  "tls_read", "tls_write", "tls_close"]

/-- Resolve a native's name to its dispatch index. -/
def nativeIndex (name : String) : Option UInt32 := (natives.idxOf? name).map UInt32.ofNat

/-- The name a native is bound by, for its dispatch index. -/
def nativeName (index : UInt32) : Option String := natives[index.toNat]?

private theorem natives_nodup : natives.Nodup := by decide +kernel

/-- A name resolves to the index it came from: no two natives share a name. -/
theorem nativeIndex_nativeName {index : UInt32} {name : String} (named : nativeName index = some name) :
    nativeIndex name = some index := by
  obtain ⟨bound, rfl⟩ := List.getElem?_eq_some_iff.mp named
  have first : natives.idxOf? natives[index.toNat] = some index.toNat := by
    rw [List.idxOf?_eq_some_iff]
    refine ⟨bound, rfl, fun earlier before same => ?_⟩
    have := (List.getElem_inj natives_nodup).mp same
    omega
  rw [nativeIndex, first, Option.map_some, UInt32.ofNat_toNat]

end Thera.Bytecode
