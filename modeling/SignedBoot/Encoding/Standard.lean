import SignedBoot.Encoding.Pkcs1
import SignedBoot.Encoding.Pss

/-! # The standard schemes -/

namespace SignedBoot

def SchemeTable.rsa : SchemeTable := ⟨some Pss.scheme, some Pkcs1.scheme⟩

end SignedBoot
