import AsmKit.Command.Files

/-
  What commands rely on when they write a file (`FileSystem.StoresWhole`), and that the hierarchy of
  directories can be relied on for it.
-/

namespace AsmKit

namespace Hierarchy

variable {h h' : Hierarchy} {path contents : Bytes}

end Hierarchy

end AsmKit
