/-!
# Build targets

The operating systems and architectures that file names and build constraints may speak of, and the
target that packages are read for.
-/

namespace Stubwright.Build

/-- The operating systems with a name of their own. -/
def knownSystems : List String :=
  ["aix", "android", "darwin", "dragonfly", "freebsd", "hurd", "illumos", "ios", "js", "linux",
   "nacl", "netbsd", "openbsd", "plan9", "solaris", "wasip1", "windows", "zos"]

/-- The architectures with a name of their own. -/
def knownArchitectures : List String :=
  ["386", "amd64", "amd64p32", "arm", "armbe", "arm64", "arm64be", "loong64", "mips", "mipsle",
   "mips64", "mips64le", "mips64p32", "mips64p32le", "ppc", "ppc64", "ppc64le", "riscv",
   "riscv64", "s390", "s390x", "sparc", "sparc64", "wasm"]

def unixSystems : List String :=
  ["aix", "android", "darwin", "dragonfly", "freebsd", "hurd", "illumos", "ios", "linux",
   "netbsd", "openbsd", "solaris"]

/-- The operating system packages are read for. -/
def targetSystem : String := "linux"

/-- The architecture packages are read for. -/
def targetArchitecture : String := "amd64"

/-- Whether a tag of a build constraint holds for the target: its system, its architecture, `unix`,
the compiler, and every release of the language. -/
def holdsTag (tag : String) : Bool :=
  tag == targetSystem || tag == targetArchitecture
    || (tag == "unix" && unixSystems.contains targetSystem) || tag == "gc"
    || "go1.".toList.isPrefixOf tag.toList

end Stubwright.Build
